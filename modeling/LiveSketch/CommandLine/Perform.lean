import LiveSketch.CommandLine.Arguments
import LiveSketch.CommandLine.Help
import LiveSketch.CommandLine.Host
import LiveSketch.CommandLine.Path
import LiveSketch.Live.Options
import LiveSketch.Live.Session
import LiveSketch.Scene.Line
import LiveSketch.Text.Quoted

/-!
# What the commands do

`perform` carries out a request and gives the exit code: zero, one if a command fails, and two if the
arguments cannot be understood. A command that fails says why on the standard error.
-/
namespace LiveSketch.CommandLine

open Live (Options FrameRate Session)

/-- Why a command failed. -/
structure CommandFault where
  message : String
  cause : Option Refusal := none
  deriving DecidableEq, Repr

/-- What is said about a failed command. -/
def CommandFault.report (f : CommandFault) : String :=
  "Error: " ++ f.message ++ "\n" ++ match f.cause with
    | some r => "\nCaused by:\n    " ++ r.message ++ "\n"
    | none => ""

variable {m : Type → Type} [Monad m] (host : Host m)

/-- Something that may fail as a command. -/
abbrev Step (m : Type → Type) (α : Type) := ExceptT CommandFault m α

/-- Turns a refusal into a fault of the command. -/
def orFail {α : Type} (message : String) (act : m (Except Refusal α)) : Step m α := do
  match ← act with
  | .ok a => return a
  | .error r => throw ⟨message, some r⟩

/-- The text of a sketch; the path that is a dash stands for the standard input. -/
def readSketch (path : String) : Step m (List Char) := do
  let text ← if Path.isSame path "-" then orFail "read sketch from stdin" host.readInput
    else orFail s!"read sketch '{path}'" (host.readFile path)
  return text.toList

/-- The options of a run: those of the file, overridden by the given ones. -/
def readRunOptions (s : RunSettings) : Step m Options := do
  let o ← match s.config with
    | none => pure ({} : Options)
    | some path =>
      let text ← orFail s!"read {path}" (host.readFile path)
      match Options.read? text.toList with
      | some o => pure o
      | none => throw ⟨s!"invalid options in {path}", none⟩
  return { rate := (s.fps.map FrameRate.fixed).getD o.rate, seed := s.seed.or o.seed }

/-- The sketch of a run: one of the gallery, or the one that is read. -/
def runSketch (s : RunSettings) : Step m (List Char) := do
  match s.demo with
  | none => readSketch host s.input
  | some name => match Gallery.find? name with
    | some sketch => return sketch.text.toList
    | none => throw ⟨s!"no demo named '{name}'", none⟩

/-- Creates the file that scenes are written to. -/
def openOutput (path : String) : Step m Unit := do
  match Path.parent? path with
  | some folder => orFail s!"create output dir '{folder}'" (host.createFolders folder)
  | none => pure ()
  orFail s!"create '{path}'" (host.createFile path)

/-- How a run is played. -/
structure Play where
  out : Option String
  autocode : Bool
  realtime : Bool
  loud : Bool
  /-- The time from one frame to the next, in milliseconds. -/
  pace : Float

/-- Writes a line of scenes. -/
def Play.write (p : Play) (line : String) : m Unit :=
  match p.out with
  | some path => host.append path (line ++ "\n")
  | none => host.print (line ++ "\n")

/-- Writes the scenes that were rendered since the last time, and forgets all that was shown. -/
def Play.flush (p : Play) (s : Session) : m Session := do
  for (n, scene) in s.scheduler.screen.frames.toList do p.write host (scene.line n)
  if p.loud then for e in s.bus.events do host.complain ("event: " ++ e.display ++ "\n")
  return s.forget

/-- Sets the clock of a session played in real time. -/
def Play.tellTime (p : Play) (s : Session) : m Session := do
  if p.realtime then return s.setTime (← host.now) else return s

/-- Waits for the next frame of a session played in real time, and gives when the one after it is due. -/
def Play.wait (p : Play) (due : Float) : m Float := do
  if p.realtime then
    let now ← host.now
    if now < due then host.sleep (due - now)
    return (← host.now) + p.pace
  else return due

/-- Plays up to `n` more frames and gives how many were rendered. A run ends early when the loop goes
idle. -/
def Play.frames (p : Play) : (n : Nat) → (due : Float) → Session → m Nat
  | 0, _, _ => return 0
  | n + 1, due, s => do
    let s ← p.tellTime host s
    let s := if p.autocode then s.pollAutocoder.2 else s
    let due ← p.wait host due
    let s ← p.tellTime host s
    match s.runFrame with
    | (none, _) => return 0
    | (some report, s) =>
      let s ← p.flush host s
      let s := if p.realtime then s else s.advance p.pace
      match report with
      | .dozed => return 0
      | .failed fault =>
        host.complain s!"runtime error: {fault.message}\n"
        p.frames n due s
      | .rendered _ => return (← p.frames n due s) + 1

/-- Runs a sketch. -/
def run (verbosity : Nat) (settings : RunSettings) : Step m Unit := do
  let sketch ← runSketch host settings
  let o ← readRunOptions host settings
  match settings.out with
  | some path => openOutput host path
  | none => pure ()
  let seed ← match o.seed with
    | some seed => pure seed
    | none => host.entropy
  let play : Play :=
    { out := settings.out
      autocode := settings.autocode
      realtime := settings.realtime
      loud := verbosity != 0
      pace := o.rate.milliseconds }
  let s ← (play.tellTime host (Session.ofSeed o.rate seed 0 []) : m Session)
  let (result, s) := s.subscribe.2.load sketch
  match result with
  | .rejected f => throw ⟨s!"sketch rejected: {f.message}", none⟩
  | _ => pure ()
  let s := if settings.autocode then (s.toggleAutocoder (some true)).2 else s
  let due := s.scheduler.now + play.pace
  let rendered ← (play.frames host settings.frames due s : m Nat)
  host.complain s!"rendered {rendered} frame(s)\n"

/-- Prints the script of a sketch. -/
def transform (input : String) : Step m Unit := do
  let sketch ← readSketch host input
  match Routine.scriptOf sketch with
  | .ok script => host.print (String.ofList script ++ "\n")
  | .error f => throw ⟨f.display, none⟩

/-- A line about a token. -/
def tokenLine (t : Autocoder.Token) : String :=
  t.kind.name ++ "\t" ++ String.ofList (Text.quoted t.text) ++ "\n"

/-- Prints the tokens of a sketch. -/
def lex (input : String) : Step m Unit := do
  let sketch ← readSketch host input
  match Autocoder.tokenize sketch with
  | .ok ts => host.print (ts.foldl (fun out t => out ++ tokenLine t) "")
  | .error fault => throw ⟨fault.display, none⟩

/-- Prints variations of a sketch, each made from the one before; `done` of them are made. -/
def printVariations (done : Nat) : (n : Nat) → Autocoder → List Char → Step m Unit
  | 0, _, _ => pure ()
  | n + 1, a, sketch => do
    match a.mutate sketch with
    | (none, _) => throw ⟨s!"nothing to mutate after {done} mutation(s)", none⟩
    | (some next, a) =>
      host.print (String.ofList next ++ "\n")
      if n != 0 then host.print "---\n"
      printVariations (done + 1) n a next

/-- Varies a sketch. -/
def mutate (input : String) (count : Nat) (seed : Option UInt64) : Step m Unit := do
  let sketch ← readSketch host input
  let seed ← match seed with
    | some seed => pure seed
    | none => host.entropy
  printVariations host 0 count (.ofSeed seed) sketch

/-- A text filled up with spaces. -/
def padded (width : Nat) (s : String) : String :=
  s ++ String.ofList (List.replicate (width - s.length) ' ')

/-- A line about a sketch of the gallery. -/
def sketchLine (s : Gallery.Sketch) : String :=
  "  " ++ padded 18 s.name ++ " " ++ padded 22 s.group ++ " " ++ s.title ++ "\n"

/-- The sketches of the gallery under their headings. -/
def listing : String :=
  let table (heading : String) (sketches : List Gallery.Sketch) : String :=
    sketches.foldl (fun out s => out ++ sketchLine s) (heading ++ ":\n")
  table "demos" Gallery.demos ++ table "tutorials" Gallery.tutorials

/-- Carries out a job. -/
def performJob (verbosity : Nat) : Job → Step m Unit
  | .run settings => run host verbosity settings
  | .transform input => transform host input
  | .lex input => lex host input
  | .mutate input count seed => mutate host input count seed
  | .demos => host.print listing

/-- Carries out a request and gives the exit code. -/
def perform : Request → m UInt32
  | .perform verbosity job => do
    match ← (performJob host verbosity job).run with
    | .ok () => return 0
    | .error fault =>
      host.complain fault.report
      return 1
  | .help page => do
    host.print page.text
    return 0
  | .version => do
    host.print "livecode 0.1.0\n"
    return 0
  | .misuse => do
    host.complain misuseText
    return 2

end LiveSketch.CommandLine
