/-!
# Paths

A path is names between slashes, which lead from one folder to the next. The name `.` leads nowhere and
`..` back.
-/
namespace LiveSketch.CommandLine.Path

/-- The greatest number of bytes of a path. -/
def longest : Nat := 4095

/-- The greatest number of bytes of a name. -/
def longestName : Nat := 255

/-- The names of a path. -/
def names (path : String) : List String := (path.splitOn "/").filter (· != "")

/-- Whether the path leads from the root, and not from the current folder. -/
def isAbsolute (path : String) : Bool := path.toList.head? == some '/'

/-- The names of a path that tell it apart from others: a single dot does so only where a path begins
with it. -/
def essential (path : String) : List String :=
  match isAbsolute path, names path with
  | false, first :: rest => first :: rest.filter (· != ".")
  | _, names => names.filter (· != ".")

/-- Whether two paths are the same, however many slashes and needless dots they are written with. -/
def isSame (path other : String) : Bool :=
  isAbsolute path == isAbsolute other && essential path == essential other

/-- Whether a path ends like that of a folder. -/
def endsInSlash (path : String) : Bool := path.toList.getLast? == some '/'

/-- A path from its end on, without the slashes and single dots at the end. -/
def trimEnd : (fuel : Nat) → List Char → List Char
  | 0, cs => cs
  | _ + 1, ['/'] => ['/']
  | fuel + 1, '/' :: cs => trimEnd fuel cs
  | fuel + 1, '.' :: '/' :: cs => trimEnd fuel ('/' :: cs)
  | _ + 1, cs => cs

/-- The path of the folder that this path lies in. It is empty for the current folder, and the root lies
in no folder. -/
def parent? (path : String) : Option String :=
  let cs := path.toList.reverse
  match trimEnd cs.length cs with
  | [] => none
  | ['/'] => none
  | cs =>
    let above := cs.dropWhile (· != '/')
    some (String.ofList (trimEnd above.length above).reverse)

end LiveSketch.CommandLine.Path
