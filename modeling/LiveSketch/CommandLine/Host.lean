/-!
# The world around a command

A command reads and writes files, prints, and asks for the time and for randomness. `Host` lists all that
it can do. Commands are written over any monad with these operations.
-/
namespace LiveSketch.CommandLine

/-- Why the system refused something. -/
structure Refusal where
  message : String
  deriving DecidableEq, Repr

namespace Refusal

def notFound : Refusal := ⟨"No such file or directory (os error 2)"⟩

def alreadyExists : Refusal := ⟨"File exists (os error 17)"⟩

def noFolder : Refusal := ⟨"Not a directory (os error 20)"⟩

def isFolder : Refusal := ⟨"Is a directory (os error 21)"⟩

def nameTooLong : Refusal := ⟨"File name too long (os error 36)"⟩

def noPermission : Refusal := ⟨"Permission denied (os error 13)"⟩

def noText : Refusal := ⟨"stream did not contain valid UTF-8"⟩

end Refusal

/-- What a command can do. -/
structure Host (m : Type → Type) where
  readFile : (path : String) → m (Except Refusal String)
  /-- Reads the standard input to its end. -/
  readInput : m (Except Refusal String)
  /-- Creates a folder and those that it lies in, as far as they do not exist. -/
  createFolders : (path : String) → m (Except Refusal Unit)
  /-- Creates an empty file, or empties one that exists. -/
  createFile : (path : String) → m (Except Refusal Unit)
  append : (path text : String) → m Unit
  print : (text : String) → m Unit
  /-- Prints on the standard error. -/
  complain : (text : String) → m Unit
  /-- A seed that nobody can foresee. -/
  entropy : m UInt64
  /-- The time in milliseconds since the start. -/
  now : m Float
  /-- Waits so many milliseconds. -/
  sleep : (ms : Float) → m Unit

end LiveSketch.CommandLine
