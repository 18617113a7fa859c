import LiveSketch.Proofs.Script.Agreement
import LiveSketch.Proofs.Sketch.HeaderRows

/-!
# Instrumented sketches

`instrument_faithful`: where a report can be put in front of the body of each header, the instrumented sketch
does what the sketch does with plain loops, and reports the line of a header whenever its body is entered.
The parts of the sketch say what it is to enter a body: they are the same for all counts of the loops, and both
scripts run them.
-/
namespace LiveSketch.Sketch

open Script Text

/-- The script for a sketch. -/
def viewText : View → List Char → List Char
  | .loops count, cs => withLoops count cs
  | .reports, cs => instrument cs

theorem splitLines_viewText (v : View) (cs : List Char) :
    splitLines (viewText v cs) = viewLines v 0 (splitLines cs) := by
  cases v with
  | loops count => exact splitLines_withLoops count cs
  | reports => exact splitLines_instrument cs

/-- Where a sketch can be read with loops in place of its headers, it can be read in every view, and all trees are
views of the same parts. -/
theorem parse_viewText {cs : List Char} {count : Nat → Nat} {stmts : List Stmt} (hclear : isClear (splitLines cs))
    (h : parse (withLoops count cs) = .ok stmts) : ∃ parts : List (Part (splitLines cs).length), ∀ v,
      ∃ stmts', parse (viewText v cs) = .ok stmts' ∧ eraseBlock stmts' = viewAll v parts := by
  obtain ⟨ts, hl, hp⟩ := bind_eq_ok.1 h
  rw [lex, splitLines_withLoops] at hl
  obtain ⟨rows, hrows⟩ := lexes_viewLines hclear (Nat.le_of_eq (Nat.zero_add _)) hl
  obtain ⟨ts', hl', hs⟩ := hrows (.loops count) 0
  rw [hl] at hl'
  cases hl'
  obtain ⟨parts, hparts⟩ := Parser.program_view hs hp
  refine ⟨parts, fun v => ?_⟩
  obtain ⟨us, hu, hus⟩ := hrows v 0
  obtain ⟨stmts', hstmts, he⟩ := hparts v us hus
  refine ⟨stmts', ?_, he⟩
  rw [parse, lex, splitLines_viewText, hu]
  exact hstmts

/-- The script for a sketch is compiled if it is with loops, and runs its parts. -/
theorem compile_viewText {cs : List Char} {n : Nat} {parts : List (Part n)} {v : View} {stmts : List Stmt}
    (hn : n ≤ 2 ^ 53) (hv : ∀ i, v.count i = 1) (hm : doOnceMarker ∉ assignedAll parts)
    (hparse : parse (viewText v cs) = .ok stmts) (he : eraseBlock stmts = viewAll v parts)
    (hl : lowerableBlock (viewAll v parts)) :
    ∃ q, compile (viewText v cs) = .ok q ∧ ∀ {σ : Type} (device : Device σ),
      q.run device = Part.run device v.enter parts := by
  have hok : (lower stmts).isOk := by
    rw [lower_isOk, ← lowerableBlock_erase, he]
    exact hl
  cases hq : lower stmts with
  | error r =>
    rw [hq] at hok
    cases hok
  | ok q =>
    refine ⟨q, ?_, fun device => ?_⟩
    · rw [compile, hparse, ok_bind, hq]
      rfl
    · rw [lower_run device hq, Part.run_of_view hv hm hn he]

/-- **Instrumenting is faithful** where behind the arrow of each header a body stands, or a block whose first line
holds a statement and no other header. If such a sketch compiles with a loop in place of each header, it
compiles with reports too. In every context and on every device the instrumented script has the same outcome and
leaves the same behind, but for the reports, and it reports the number of a header each time its body is entered,
and nothing else that it would not report without. -/
theorem instrument_faithful {cs : List Char} {p : Program} (hclear : isClear (splitLines cs))
    (hlines : cs.count '\n' < 2 ^ 53) (h : compile (withLoops (fun _ => 1) cs) = .ok p)
    (hm : doOnceMarker ∉ p.slots) :
    ∃ (q : Program) (parts : List (Part (splitLines cs).length)), compile (instrument cs) = .ok q ∧
      (∀ count, ∃ stmts, parse (withLoops count cs) = .ok stmts ∧
        eraseBlock stmts = viewAll (.loops count) parts) ∧
      ∀ {σ : Type} (device : Device σ), p.run device = Part.run device (fun _ => pure ()) parts ∧
        q.run device = Part.run device Run.report parts ∧
        ∀ c, (q.run device c).1 = (p.run device c).1 ∧
          (q.run device c).2.SameScene (p.run device c).2 := by
  obtain ⟨stmts, hparse, hlower⟩ := bind_eq_ok.1 (mapError_eq_ok.1 h)
  obtain ⟨parts, hparts⟩ := parse_viewText hclear hparse
  obtain ⟨stmts', hparse', he⟩ := hparts (.loops fun _ => 1)
  rw [viewText, hparse] at hparse'
  cases hparse'
  have hn : (splitLines cs).length ≤ 2 ^ 53 := by
    rw [length_splitLines]
    exact hlines
  have hassigned : doOnceMarker ∉ assignedAll parts := by
    rw [← Part.assignedInBlock_viewAll (.loops fun _ => 1), ← he, Lowering.assignedInBlock_erase]
    obtain ⟨⟨instrs, slots⟩, hcode, hp⟩ := bind_eq_ok.1 hlower
    obtain rfl := pure_eq_ok.1 hp
    exact fun hmem => hm (Lowering.assignedInBlock_subset hcode hmem)
  have hlowerable : lowerableBlock (viewAll (.loops fun _ => 1) parts) := by
    rw [← he, lowerableBlock_erase, ← lower_isOk, hlower]
    rfl
  obtain ⟨reported, hreported, he'⟩ := hparts .reports
  obtain ⟨q, hq, hrun⟩ := compile_viewText hn (fun _ => rfl) hassigned hreported he'
    (Part.lowerable_viewAll _ _ parts ▸ hlowerable)
  have hp : ∀ {σ : Type} (device : Device σ), p.run device = Part.run device (fun _ => pure ()) parts :=
    fun device => by
      rw [lower_run device hlower, Part.run_of_view (fun _ => rfl) hassigned hn he]
      rfl
  have hq' : ∀ {σ : Type} (device : Device σ), q.run device = Part.run device Run.report parts :=
    fun device => hrun device
  refine ⟨q, parts, hq, fun count => hparts (.loops count), fun device => ⟨hp device, hq' device, fun c => ?_⟩⟩
  rw [hp device, hq' device]
  exact Part.run_agree device (fun i => Run.report_agree i) parts c c ⟨rfl, rfl, rfl⟩

/-- A body, and in a branch a block that holds a body. -/
def nestedHeaders : List Char :=
  "doOnce -> box\nif frame > 2\n\tdoOnce ->\n\t\tball\n\t\tdoOnce -> peg".toList

theorem instrument_faithful_nestedHeaders :
    isClear (splitLines nestedHeaders) ∧
      ∃ (p q : Program) (parts : List (Part (splitLines nestedHeaders).length)),
        compile (withLoops (fun _ => 1) nestedHeaders) = .ok p ∧ doOnceMarker ∉ p.slots ∧
        compile (instrument nestedHeaders) = .ok q ∧
        ∀ c, p.run (Recorder.command : Device (Recorder Float)) c =
            Part.run Recorder.command (fun _ => pure ()) parts c ∧
          q.run (Recorder.command : Device (Recorder Float)) c = Part.run Recorder.command Run.report parts c ∧
          (q.run (Recorder.command : Device (Recorder Float)) c).1 = (p.run Recorder.command c).1 ∧
          (q.run (Recorder.command : Device (Recorder Float)) c).2.SameScene (p.run Recorder.command c).2 := by
  have hclear : isClear (splitLines nestedHeaders) := by decide
  have hcompiled : (compile (withLoops (fun _ => 1) nestedHeaders)).toOption.any
      (doOnceMarker ∉ ·.slots) := by decide +kernel
  cases hp : compile (withLoops (fun _ => 1) nestedHeaders) with
  | error r =>
    rw [hp] at hcompiled
    cases hcompiled
  | ok p =>
    rw [hp] at hcompiled
    have hm : doOnceMarker ∉ p.slots := of_decide_eq_true hcompiled
    obtain ⟨q, parts, hq, -, hrun⟩ := instrument_faithful hclear (by decide) hp hm
    obtain ⟨hrunp, hrunq, hsame⟩ := hrun (Recorder.command : Device (Recorder Float))
    exact ⟨hclear, p, q, parts, rfl, hm, hq,
      fun c => ⟨congrFun hrunp c, congrFun hrunq c, hsame c⟩⟩

end LiveSketch.Sketch
