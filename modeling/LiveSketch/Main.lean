import LiveSketch.CommandLine.Perform

/-!
# The program

The operating system as the host of the commands.
-/
namespace LiveSketch.CommandLine

/-- The number of an error of the system, which is also found with its sign changed. -/
def errorNumber (code : UInt32) : UInt32 := if code < 0x80000000 then code else 0 - code

/-- The refusal behind an error of the system. -/
def Refusal.ofError : IO.Error → Refusal
  | .noFileOrDirectory .. => notFound
  | .alreadyExists .. => alreadyExists
  | .permissionDenied .. => noPermission
  | .inappropriateType _ code _ => if errorNumber code = 21 then isFolder else noFolder
  | .invalidArgument file code text =>
    if errorNumber code = 36 then nameTooLong
    else ⟨toString (IO.Error.invalidArgument file code text)⟩
  | e => ⟨toString e⟩

/-- Tries something that the system may refuse. -/
def attempt {α : Type} (act : IO α) : IO (Except Refusal α) := do
  try
    return .ok (← act)
  catch e =>
    return .error (.ofError e)

/-- The text of some bytes. -/
def decode (bytes : ByteArray) : Except Refusal String :=
  match String.fromUTF8? bytes with
  | some text => .ok text
  | none => .error .noText

/-- Reads a stream to its end. -/
partial def readAll (stream : IO.FS.Stream) (bytes : ByteArray) : IO ByteArray := do
  let more ← stream.read 65536
  if more.isEmpty then return bytes else readAll stream (bytes ++ more)

/-- Tries to read a text. -/
def attemptText (act : IO ByteArray) : IO (Except Refusal String) := do
  return (← attempt act).bind decode

/-- The operating system as a host. -/
def system (start : Nat) : Host IO where
  readFile path := attemptText (IO.FS.readBinFile path)
  readInput := do attemptText (readAll (← IO.getStdin) ByteArray.empty)
  createFolders path := attempt (if path.isEmpty then pure () else IO.FS.createDirAll path)
  createFile path := attempt (IO.FS.writeFile path "")
  append path text := do
    let file ← IO.FS.Handle.mk path .append
    file.putStr text
  print text := do (← IO.getStdout).putStr text
  complain text := do (← IO.getStderr).putStr text
  entropy := do
    let bytes ← IO.getRandomBytes 8
    return bytes.toList.foldl (fun n b => n <<< 8 ||| b.toUInt64) 0
  now := do return Float.ofNat ((← IO.monoNanosNow) - start) / 1000000.0
  sleep ms := IO.sleep ms.ceil.toUInt32

end LiveSketch.CommandLine

open LiveSketch.CommandLine in
/-- Carries out what the arguments ask for. -/
def main (words : List String) : IO UInt32 := do
  perform (system (← IO.monoNanosNow)) (Request.ofArguments words)
