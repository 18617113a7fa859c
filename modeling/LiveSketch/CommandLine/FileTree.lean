import LiveSketch.CommandLine.Host
import LiveSketch.CommandLine.Path
import LiveSketch.Log

/-!
# A tree of files

Folders and files in memory, found by paths as an operating system finds them: each name of a path is
looked up in the folder that the names before it lead to, so that there has to be such a folder even if
the next name is a dot.
-/
namespace LiveSketch.CommandLine

/-- Where something lies: the names on the way from the root. -/
abbrev Place := List String

/-- The folder that paths lead from if they do not lead from the root. -/
def Place.current : Place := ["tmp", "sketches"]

/-- What is no file but can be opened like one. -/
inductive Device where
  /-- Holds nothing and forgets what is written to it. -/
  | sink
  /-- The standard input. -/
  | input
  /-- The standard output. -/
  | output
  deriving DecidableEq, Repr

/-- Something in a tree of files. -/
inductive Entry where
  | folder
  /-- A file that was written piece by piece. -/
  | file (pieces : Log String)
  | device (d : Device)
  deriving DecidableEq, Repr

/-- What lies where. -/
structure FileTree where
  entries : List (Place × Entry)
  deriving DecidableEq, Repr

namespace FileTree

/-- The tree with an empty current folder. -/
def empty : FileTree :=
  ⟨[([], .folder), (["tmp"], .folder), (Place.current, .folder), (["dev"], .folder),
    (["dev", "null"], .device .sink), (["dev", "stdin"], .device .input),
    (["dev", "stdout"], .device .output)]⟩

/-- What lies at a place. -/
def entry? (t : FileTree) (place : Place) : Option Entry := t.entries.lookup place

/-- Puts something at a place, instead of what is there. -/
def put (t : FileTree) (place : Place) (e : Entry) : FileTree :=
  ⟨(place, e) :: t.entries.filter (·.1 != place)⟩

/-- Follows a name from a place. Nothing needs to lie where it leads. -/
def enter (t : FileTree) (here : Place) (name : String) : Except Refusal Place :=
  match t.entry? here with
  | none => .error .notFound
  | some .folder =>
    if name == "." then .ok here
    else if name == ".." then .ok here.dropLast
    else if Path.longestName < name.utf8ByteSize then .error .nameTooLong
    else .ok (here ++ [name])
  | some _ => .error .noFolder

/-- Follows the names of a path, but for some of the last. -/
def walk (t : FileTree) (path : String) (butLast : Nat) : Except Refusal Place :=
  if path.isEmpty then .error .notFound
  else if Path.longest < path.utf8ByteSize then .error .nameTooLong
  else
    let names := Path.names path
    (names.take (names.length - butLast)).foldlM t.enter
      (if Path.isAbsolute path then [] else Place.current)

/-- Whether the path leads to a folder. -/
def isFolder (t : FileTree) (path : String) : Bool :=
  match t.walk path 0 with
  | .ok place => t.entry? place == some .folder
  | .error _ => false

/-- What can be read at a path. -/
def find (t : FileTree) (path : String) : Except Refusal Entry := do
  match t.entry? (← t.walk path 0) with
  | none => throw .notFound
  | some .folder => throw .isFolder
  | some e => if Path.endsInSlash path then throw .noFolder else return e

/-- The text of a file. Devices hold none. -/
def read (t : FileTree) (path : String) : Except Refusal String := do
  match ← t.find path with
  | .file pieces => return String.join pieces.toList
  | _ => return ""

/-- The place for the last name of a path: where it leads, and nothing if it leads to a folder that must
exist already. -/
def newPlace? (t : FileTree) (path : String) : Except Refusal (Option Place) := do
  match (Path.names path).getLast? with
  | none => return none
  | some name =>
    let here ← t.walk path 1
    let place ← t.enter here name
    return if name == "." || name == ".." then none else some place

/-- Creates an empty file, or empties one that exists. -/
def create (t : FileTree) (path : String) : Except Refusal FileTree := do
  if Path.endsInSlash path then
    let _ ← t.enter (← t.walk path 1) "."
    throw .isFolder
  match ← t.newPlace? path with
  | none => throw .isFolder
  | some place => match t.entry? place with
    | some .folder => throw .isFolder
    | some (.device _) => return t
    | _ => return t.put place (.file .empty)

/-- Adds a text at the end of a file. -/
def append (t : FileTree) (path text : String) : FileTree :=
  match t.walk path 0 with
  | .ok place => match t.entry? place with
    | some (.file pieces) => t.put place (.file (pieces.push text))
    | _ => t
  | .error _ => t

/-- Creates a folder. -/
def createFolder (t : FileTree) (path : String) : Except Refusal FileTree := do
  match ← t.newPlace? path with
  | none => throw .alreadyExists
  | some place => match t.entry? place with
    | some _ => throw .alreadyExists
    | none => return t.put place .folder

/-- The tree after a folder was to be created, which may exist already. -/
def orFolder (t : FileTree) (path : String) : Except Refusal FileTree → Except Refusal FileTree
  | .ok t => .ok t
  | .error r => if t.isFolder path then .ok t else .error r

/-- Creates a folder and those that it lies in, as far as they do not exist. -/
def createFoldersWithin : (fuel : Nat) → (path : String) → FileTree → Except Refusal FileTree
  | 0, _, t => .ok t
  | fuel + 1, path, t =>
    if path.isEmpty then .ok t
    else match t.createFolder path, Path.parent? path with
      | .error r, some above =>
        if r = .notFound then do
          let t ← createFoldersWithin fuel above t
          t.orFolder path (t.createFolder path)
        else t.orFolder path (.error r)
      | result, _ => t.orFolder path result

/-- Creates a folder and those that it lies in. Each of them has a shorter path. -/
def createFolders (t : FileTree) (path : String) : Except Refusal FileTree :=
  t.createFoldersWithin (path.length + 1) path

/-- Puts a file at a path, together with the folders that it lies in. -/
def add (t : FileTree) (path text : String) : FileTree :=
  match t.createFolders ((Path.parent? path).getD "") >>= (·.create path) with
  | .ok t => t.append path text
  | .error _ => t

end FileTree

end LiveSketch.CommandLine
