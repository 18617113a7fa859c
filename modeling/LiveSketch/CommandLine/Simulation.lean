import LiveSketch.CommandLine.FileTree

/-!
# A simulated world

A world in which commands can be tried out: a tree of files, a standard input, what was printed, and a
clock that only goes on while a command waits.
-/
namespace LiveSketch.CommandLine

/-- The state of a simulated world. -/
structure Simulation where
  tree : FileTree := .empty
  input : String := ""
  /-- What was printed. -/
  printed : String := ""
  /-- What was printed on the standard error. -/
  complaints : String := ""
  clock : Float := 0

namespace Simulation

/-- Reads the standard input to its end, where it stays. -/
def readInput : StateM Simulation String := fun s => (s.input, { s with input := "" })

/-- Reads what lies at a path. -/
def readFile (path : String) : StateM Simulation (Except Refusal String) := do
  let s ← get
  match s.tree.find path with
  | .ok (.device .input) => return .ok (← readInput)
  | _ => return s.tree.read path

/-- Changes the files. -/
def edit (change : FileTree → Except Refusal FileTree) : StateM Simulation (Except Refusal Unit) :=
  fun s => match change s.tree with
    | .ok tree => (.ok (), { s with tree := tree })
    | .error r => (.error r, s)

/-- Prints a text. -/
def print (text : String) : StateM Simulation Unit :=
  modify fun s => { s with printed := s.printed ++ text }

/-- Writes a text at the end of what lies at a path. -/
def append (path text : String) : StateM Simulation Unit := do
  match (← get).tree.find path with
  | .ok (.device .output) => print text
  | _ => modify fun s => { s with tree := s.tree.append path text }

/-- The simulated world as a host. -/
def host : Host (StateM Simulation) where
  readFile := readFile
  readInput := do return .ok (← readInput)
  createFolders path := edit (·.createFolders path)
  createFile path := edit (·.create path)
  append := append
  print := print
  complain text := modify fun s => { s with complaints := s.complaints ++ text }
  entropy := pure 0
  now := fun s => (s.clock, s)
  sleep ms := modify fun s => { s with clock := s.clock + ms }

end Simulation

end LiveSketch.CommandLine
