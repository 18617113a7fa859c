import LiveSketch.Proofs.Outcome
import LiveSketch.Script.Routine

/-!
# Where a text is rejected

A text can be rejected by a pass over it, while its script is split into tokens, while these are read as
statements, and while the statements are turned into code. `Rejects` has a case for each, and
`ofSketch_eq_error_iff` says that these are all.
-/
namespace LiveSketch

open Script

/-- The text has no routine because of this failure. -/
inductive Rejects (text : List Char) : Failure → Prop where
  /-- A pass fails. -/
  | pass {fault : Sketch.Fault} : Sketch.toScript text = .error fault → Rejects text (.ofSketch fault)
  /-- The script cannot be split into tokens. -/
  | lexing {script : List Char} {r : Rejection} : Sketch.toScript text = .ok script →
    lex script = .error r → Rejects text (.ofCompile (r.inText script))
  /-- The tokens are no statements. -/
  | parsing {script : List Char} {ts : List Token} {r : Rejection} :
    Sketch.toScript text = .ok script → lex script = .ok ts → Parser.program ts = .error r →
    Rejects text (.ofCompile (r.inText script))
  /-- The statements have no code. -/
  | lowering {script : List Char} {stmts : List Stmt} {r : Rejection} :
    Sketch.toScript text = .ok script → parse script = .ok stmts → lower stmts = .error r →
    Rejects text (.ofCompile (r.inText script))

/-- A script is rejected by the lexer, by the parser or when it is turned into code. -/
theorem compile_eq_error_iff {script : List Char} {e : CompileError} :
    compile script = .error e ↔ ∃ r, r.inText script = e ∧
      (lex script = .error r ∨
        (∃ ts, lex script = .ok ts ∧ Parser.program ts = .error r) ∨
        ∃ stmts, parse script = .ok stmts ∧ lower stmts = .error r) := by
  have hparse : ∀ r, parse script = .error r ↔
      lex script = .error r ∨ ∃ ts, lex script = .ok ts ∧ Parser.program ts = .error r :=
    fun r => bind_eq_error
  unfold compile
  rw [mapError_eq_error]
  constructor
  · rintro ⟨r, h, rfl⟩
    rw [bind_eq_error, hparse, or_assoc] at h
    exact ⟨r, rfl, h⟩
  · rintro ⟨r, rfl, h⟩
    refine ⟨r, ?_, rfl⟩
    rw [bind_eq_error, hparse, or_assoc]
    exact h

theorem ofScript_eq_error_iff {script : List Char} {e : CompileError} :
    Routine.ofScript script = .error e ↔ compile script = .error e := by
  unfold Routine.ofScript
  cases compile script <;> simp [Except.map]

/-- The script of a text that is not empty comes from the passes. -/
theorem scriptOf_eq_ok_iff {text script : List Char} (hne : text ≠ []) :
    Routine.scriptOf text = .ok script ↔ Sketch.toScript text = .ok script := by
  unfold Routine.scriptOf
  rw [if_neg (by simpa using hne), mapError_eq_ok]

/-- A text that is not empty has the program of its script. -/
theorem ofSketch_eq_ok_iff {text : List Char} (hne : text ≠ []) {r : Option Routine} :
    Routine.ofSketch text = .ok r ↔
      ∃ script p, Sketch.toScript text = .ok script ∧ compile script = .ok p ∧ r = some ⟨some p⟩ := by
  have hroutine : ∀ (script : List Char) (found : Routine),
      (Routine.ofScript script).mapError Failure.ofCompile = .ok found ↔ ∃ p, compile script = .ok p ∧ ⟨some p⟩ = found :=
    fun script found => mapError_eq_ok.trans (map_eq_ok (f := fun p => (⟨some p⟩ : Routine)))
  simp only [Routine.ofSketch, List.isEmpty_iff, hne, if_false, bind_eq_ok, scriptOf_eq_ok_iff hne, hroutine,
    pure_eq_ok]
  constructor
  · rintro ⟨script, hs, _, ⟨p, hp, rfl⟩, rfl⟩
    exact ⟨script, p, hs, hp, rfl⟩
  · rintro ⟨script, p, hs, hp, rfl⟩
    exact ⟨script, hs, _, ⟨p, hp, rfl⟩, rfl⟩

/-- A text that is not empty is rejected by a pass, or its script is. -/
theorem ofSketch_eq_error_of_ne {text : List Char} {failure : Failure} (hne : text ≠ []) :
    Routine.ofSketch text = .error failure ↔
      (∃ fault, Sketch.toScript text = .error fault ∧ .ofSketch fault = failure) ∨
        ∃ script e, Routine.scriptOf text = .ok script ∧ compile script = .error e ∧
          .ofCompile e = failure := by
  have hscript : ∀ failure, Routine.scriptOf text = .error failure ↔
      ∃ fault, Sketch.toScript text = .error fault ∧ .ofSketch fault = failure := by
    intro failure
    unfold Routine.scriptOf
    rw [if_neg (by simpa using hne), mapError_eq_error]
  simp only [Routine.ofSketch, List.isEmpty_iff, hne, if_false, bind_eq_error, hscript,
    mapError_eq_error, mapError_eq_ok, ofScript_eq_error_iff]
  simp [pure, Except.pure]

/-- These are all the ways in which a text can be rejected. -/
theorem ofSketch_eq_error_iff {text : List Char} {failure : Failure} :
    Routine.ofSketch text = .error failure ↔ text ≠ [] ∧ Rejects text failure := by
  by_cases hne : text = []
  · subst hne
    simp only [ne_eq, not_true, false_and, iff_false]
    intro h
    cases h
  rw [ofSketch_eq_error_of_ne hne]
  simp only [scriptOf_eq_ok_iff hne]
  constructor
  · rintro (⟨fault, h, rfl⟩ | ⟨script, e, hs, he, rfl⟩)
    · exact ⟨hne, .pass h⟩
    · obtain ⟨r, rfl, h | ⟨ts, hl, h⟩ | ⟨stmts, hp, h⟩⟩ := compile_eq_error_iff.1 he
      · exact ⟨hne, .lexing hs h⟩
      · exact ⟨hne, .parsing hs hl h⟩
      · exact ⟨hne, .lowering hs hp h⟩
  · rintro ⟨-, h⟩
    cases h with
    | pass h => exact .inl ⟨_, h, rfl⟩
    | lexing hs h => exact .inr ⟨_, _, hs, compile_eq_error_iff.2 ⟨_, rfl, .inl h⟩, rfl⟩
    | parsing hs hl h =>
      exact .inr ⟨_, _, hs, compile_eq_error_iff.2 ⟨_, rfl, .inr (.inl ⟨_, hl, h⟩)⟩, rfl⟩
    | lowering hs hp h =>
      exact .inr ⟨_, _, hs, compile_eq_error_iff.2 ⟨_, rfl, .inr (.inr ⟨_, hp, h⟩)⟩, rfl⟩

end LiveSketch
