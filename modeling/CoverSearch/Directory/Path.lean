import CoverSearch.Fault

/-!
# Paths

A path is kept as the parts of its text. Empty parts and single dots lead nowhere else, but they are shown again where
the path is reported, and what they follow has to be a directory.

* `Path.ofString`, `Path.render` : the parts of a text, and the text that is reported;
* `Path.child` : the path of an entry of a directory;
* `Path.check` : what stands against a path, wherever it leads.
-/

namespace CoverSearch

/-- A path from the top, by the parts of its text between slashes. -/
abbrev Path := List String

namespace Path

def ofString (text : String) : Path := text.splitOn "/"

/-- Whether a part leads nowhere else. -/
def isIdle (part : String) : Bool := part == "" || part == "."

/-- The part that leads back to the directory above. -/
def stepUp : String := ".."

/-- The path of an entry of a directory; a slash that ends the path of the directory is not doubled. -/
def child (p : Path) (name : String) : Path := (if p.getLast? = some "" then p.dropLast else p) ++ [name]

/-- Whether a path starts with a slash, and so leads out of the tree. -/
def isAbsolute : Path → Bool
  | first :: _ :: _ => first == ""
  | _ => false

/-- The text of a path; parts that lead nowhere else are not shown at its ends. -/
def render (p : Path) : String :=
  if p.isAbsolute then "/".intercalate p
  else "/".intercalate ((p.dropWhile isIdle).reverse.dropWhile isIdle).reverse

/-- The number of bytes of the text of a path. -/
def byteCount (p : Path) : Nat := total (p.map String.utf8ByteSize) + (p.length - 1)

/-- Bytes that a name can have. -/
def maxNameBytes : Nat := 255

/-- Bytes that the text of a path can have. -/
def maxBytes : Nat := 4095

/-- What stands against the text of a path, wherever it leads. -/
def check (p : Path) : Except ReadFailure Unit :=
  if p.any fun part => part.toList.contains '\x00' then .error .invalidInput
  else if maxBytes < p.byteCount then .error .nameTooLong
  else if p.isAbsolute then .error .notFound
  else .ok ()

end Path

end CoverSearch
