import CoverSearch.Analysis
import CoverSearch.Directory.Tree

/-!
# Directories of analysis logs

* `Entry.files` : the files at or below an entry, depth first, each directory in the order of its names;
* `Entry.load` : the analysis of all log files at or below a root.

Links below the root are left out; a root that is itself a link is followed if it leads to a directory.
-/

namespace CoverSearch

/-- A file with its place. -/
structure File where
  path : Path
  content : ByteArray

namespace Entry

/-! ## Files -/

mutual

/-- The files at or below an entry with the given path. -/
def files (path : Path) : Entry → List File
  | .file content => [⟨path, content⟩]
  | .link _ => []
  | .directory entries =>
    ((filesIn path entries).mergeSort fun a b => decide (a.1 ≤ b.1)).flatMap (·.2)

/-- The files at or below each entry of a directory, by its name. -/
def filesIn (path : Path) : List (String × Entry) → List (String × List File)
  | [] => []
  | (name, entry) :: rest => (name, files (path.child name) entry) :: filesIn path rest

end

/-- The files at or below a root, which has to be there. -/
def filesAt (top : Entry) (root : Path) : Except ReadFailure (List File) := do
  match ← top.find false root with
  | .link _ =>
    match ← top.find true root with
    | .directory entries => return files root (.directory entries)
    | _ => return []
  | entry => return files root entry

end Entry

namespace File

/-- Log files are known by how their names begin. -/
def isLog (f : File) : Bool :=
  match f.path.getLast? with
  | some name => "mir".toList.isPrefixOf name.toList
  | none => false

/-- The record in a log file. -/
def record (f : File) : Except InputError Record :=
  match String.fromUTF8? f.content with
  | none => .error (.unreadable f.path.render .invalidData)
  | some text => do (← LogRecord.parse text).toRecord

end File

/-- One more log file: its record is read, and its graph built and put to the others. -/
def Analysis.insertFile (a : Analysis) (f : File) : Except InputError Analysis := do
  a.insertRecord (← f.record)

/-- The analysis of all log files at or below a root, or the first reason against one of them. -/
def Entry.load (top : Entry) (root : Path) : Except InputError Analysis :=
  match top.filesAt root with
  | .error cause => .error (.unreadable root.render cause)
  | .ok files => (files.filter File.isLog).foldlM Analysis.insertFile {}

end CoverSearch
