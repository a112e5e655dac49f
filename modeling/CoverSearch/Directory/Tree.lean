import CoverSearch.Directory.Path

/-!
# Directory trees

A place is a path by the names of real entries alone: no name on the way is a link, none is a step up.

* `Entry` : a file, a directory, or a symbolic link to a path from the top;
* `Entry.at?`, `Entry.put` : the entry at a place, and the tree with an entry put there;
* `Entry.place`, `Entry.find` : the place that a path leads to, and the entry there;
* `Change`, `Entry.apply`, `Entry.ofChanges` : the tree after files, links and directories have been made in turn.

A path may lead through links to directories, also where something is made; a file made at a link is made where the
link leads to. Empty parts and single dots of a path lead nowhere else, but what they follow has to be a directory.
-/

namespace CoverSearch

/-- A directory entry; the names in a directory are distinct. -/
inductive Entry
  | file (content : ByteArray)
  | link (target : Path)
  | directory (entries : List (String × Entry))

/-- Something that is made in a tree. -/
inductive Change
  | file (path : Path) (content : ByteArray)
  | link (path target : Path)
  | directory (path : Path)

namespace Entry

def emptyDirectory : Entry := .directory []

def isDirectory : Entry → Bool
  | directory _ => true
  | _ => false

/-! ## Places -/

/-- The entry at a place. -/
def at? (top : Entry) : (place : Path) → Option Entry
  | [] => some top
  | name :: place =>
    match top with
    | .directory entries => (entries.lookup name).bind fun inner => at? inner place
    | _ => none

/-- The tree with an entry at a place, as far as directories lead there. -/
def put (top entry : Entry) : (place : Path) → Entry
  | [] => entry
  | name :: place =>
    match top with
    | .directory entries =>
      match entries.lookup name with
      | some inner => .directory (entries.map fun e => if e.1 = name then (name, put inner entry place) else e)
      | none => .directory (entries ++ [(name, put emptyDirectory entry place)])
    | other => other

/-! ## Paths -/

/-- The place that a path leads to from the place `here`; only the last of its names may be missing. At most `links`
links on the way are followed, each from the top; a link at the end is followed if `last` says so. -/
def placeFrom (top : Entry) (last : Bool) (links : Nat) (here : Path) : Path → Except ReadFailure Path
  | [] => .ok here
  | name :: path =>
    match top.at? here with
    | none => .error .notFound
    | some (.directory entries) =>
      if Path.isIdle name then placeFrom top last links here path
      else if name = Path.stepUp then placeFrom top last links here.dropLast path
      else if Path.maxNameBytes < name.utf8ByteSize then .error .nameTooLong
      else
        match entries.lookup name with
        | some (.link target) =>
          if last || !path.isEmpty then
            match links with
            | 0 => .error .linkLoop
            | links + 1 =>
              if target.isAbsolute then .error .notFound else placeFrom top last links [] (target ++ path)
          else .ok (here ++ [name])
        | _ => placeFrom top last links (here ++ [name]) path
    | some _ => .error .notDirectory
termination_by path => (links, path.length)

/-- Links followed for one path. -/
def maxLinks : Nat := 40

/-- The place that a path leads to from the top. -/
def place (top : Entry) (last : Bool) (path : Path) : Except ReadFailure Path := do
  path.check
  top.placeFrom last maxLinks [] path

/-- The entry that a path leads to. -/
def find (top : Entry) (last : Bool) (path : Path) : Except ReadFailure Entry := do
  match top.at? (← top.place last path) with
  | some entry => return entry
  | none => throw .notFound

/-! ## Changes -/

/-- The tree with an entry at a path that leads to nothing yet. -/
def add (top entry : Entry) (path : Path) : Entry :=
  match top.place false path with
  | .ok place => if (top.at? place).isNone then top.put entry place else top
  | .error _ => top

/-- The tree with all directories of a path. -/
def addDirectories (top : Entry) (path : Path) : Entry :=
  (List.range path.length).foldl (fun top n => top.add emptyDirectory (path.take (n + 1))) top

/-- The tree with a file at a path, in place of the file that it leads to. -/
def addFile (top : Entry) (path : Path) (content : ByteArray) : Entry :=
  match top.place true path with
  | .ok place => if (top.at? place).any isDirectory then top else top.put (.file content) place
  | .error _ => top

/-- The tree after a change, with the directories on the way to it; a change that cannot be made is left out. -/
def apply (top : Entry) : Change → Entry
  | .file path content => (top.addDirectories path.dropLast).addFile path content
  | .link path target => (top.addDirectories path.dropLast).add (.link target) path
  | .directory path => top.addDirectories path

/-- The tree after some changes of an empty directory. -/
def ofChanges (changes : List Change) : Entry := changes.foldl apply emptyDirectory

end Entry

end CoverSearch
