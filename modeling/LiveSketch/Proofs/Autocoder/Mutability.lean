import LiveSketch.Proofs.Autocoder.Mutation
import LiveSketch.Proofs.Number.Counts

/-!
# What can be varied again

Whether a token can be varied is told from its kind and its text, and what becomes of it is told from them once more. The
two agree but for one kind: a colour that the palette does not know counts as one that cannot be varied, and becomes a
colour of the palette all the same (`mutate_unlisted`).

What can be varied becomes what can be varied again, whatever is drawn. A number with two places is read again, also where
it has become infinite or no number at all; a count stays a count of 64 bits and is read as it is written; a shape changes
back (`mutate_isMutable`).
-/
namespace LiveSketch

theorem Palette.contains_iff {name : String} : Palette.contains name ↔ name ∈ Palette.names := by
  rw [Palette.contains, Palette.find?, Palette.names, List.lookup_isSome_iff, List.mem_map]
  exact exists_congr fun entry => and_congr_right fun _ => beq_iff_eq.trans eq_comm

namespace Autocoder

/-! ## The same text read again -/

/-- A count of 64 bits is read as it is written. -/
theorem leadingCount?_digitsOf {n : Nat} (hn : n < UInt64.size) {rest : List Char}
    (hrest : ∀ c ∈ rest.head?, c.isDigit = false) : leadingCount? (Number.digitsOf n ++ rest) = some (n, rest) := by
  have hdigits : ∀ c ∈ Number.digitsOf n, c.isDigit := fun _ => Number.isDigit_of_mem_digitsOf
  simp [leadingCount?, Text.takeWhile_append hdigits hrest, Text.dropWhile_append hdigits hrest, Number.ofDigits_digitsOf,
    Number.digitsOf_ne_nil, hn]

/-- A shape changes back. -/
theorem meshAlternate?_symm {a b : String} (h : meshAlternate? a = some b) : meshAlternate? b = some a := by
  have hpairs : ∀ swap ∈ meshSwaps, meshAlternate? swap.1 = some swap.2 ∧ meshAlternate? swap.2 = some swap.1 := by decide
  obtain ⟨swap, hmem, hswap⟩ := List.exists_of_findSome?_eq_some h
  dsimp only at hswap
  split at hswap
  · rename_i hfirst
    obtain rfl := beq_iff_eq.1 hfirst
    cases hswap
    exact (hpairs swap hmem).2
  · split at hswap
    · rename_i hsecond
      obtain rfl := beq_iff_eq.1 hsecond
      cases hswap
      exact (hpairs swap hmem).1
    · cases hswap

namespace Token

/-! ## What cannot be varied -/

theorem mutateText_eq_none {t : Token} (h : t.isMutable = false) (hk : t.kind ≠ .colour) (g : Random.Generator) :
    t.mutateText g = (none, g) := by
  obtain ⟨kind, s⟩ := t
  cases kind with
  | num =>
    have hread : Number.read? s = none := by simpa [isMutable] using h
    simp [mutateText, mutateNumber, hread]
  | iteration =>
    have hcount : leadingCount? s = none := by simpa [isMutable] using h
    simp [mutateText, mutateIteration, hcount]
  | mesh =>
    have hshape : meshAlternate? (String.ofList s) = none := by simpa [isMutable] using h
    simp [mutateText, hshape]
  | colour => exact absurd rfl hk
  | comment | tab | op | argDelim | newline | motion | colourOp | stateFun | variableName | doOnce | space | unknown =>
    rfl

/-! ## What can be varied -/

section

variable {s : List Char} (g : Random.Generator)

theorem isMutable_mutate_number (h : isMutable ⟨.num, s⟩) : (mutate ⟨.num, s⟩ g).1.isMutable := by
  have hread : (Number.read? s).isSome := h
  obtain ⟨x, hx⟩ := Option.isSome_iff_exists.1 hread
  obtain ⟨y, -, hmutate⟩ := mutate_number hx g
  rw [hmutate]
  exact Number.read?_twoPlaces _

theorem isMutable_mutate_iteration (h : isMutable ⟨.iteration, s⟩) : (mutate ⟨.iteration, s⟩ g).1.isMutable := by
  have hcount : (leadingCount? s).isSome := h
  obtain ⟨⟨n, rest⟩, hn⟩ := Option.isSome_iff_exists.1 hcount
  obtain ⟨m, hm, hmutate⟩ := mutate_iteration hn g
  rw [hmutate, isMutable, leadingCount?_digitsOf hm (leadingCount?_bound hn).2]
  rfl

theorem isMutable_mutate_mesh (h : isMutable ⟨.mesh, s⟩) : (mutate ⟨.mesh, s⟩ g).1.isMutable := by
  have hshape : (meshAlternate? (String.ofList s)).isSome := h
  obtain ⟨b, hb⟩ := Option.isSome_iff_exists.1 hshape
  simp [mutate, mutateText, hb, isMutable, meshAlternate?_symm hb]

/-- A colour becomes another one that can be varied, whether it could be varied or not. -/
theorem isMutable_mutate_colour : (mutate ⟨.colour, s⟩ g).1.isMutable ∧ (mutate ⟨.colour, s⟩ g).1.text ≠ s := by
  obtain ⟨name, hname, hother, hmutate⟩ := mutate_colour s g
  rw [hmutate, isMutable, String.ofList_toList]
  exact ⟨Palette.contains_iff.2 hname, hother⟩

end

/-- **What can be varied stays what can be varied.** A token keeps its kind. If it cannot be varied and is no colour, it stays
as it is and nothing is drawn. If it can be varied, what it becomes can be varied, too. A colour becomes another colour that
can be varied, also one that cannot be varied itself. -/
theorem mutate_isMutable (t : Token) (g : Random.Generator) :
    (t.mutate g).1.kind = t.kind ∧
      (t.isMutable = false → t.kind ≠ .colour → t.mutate g = (t, g)) ∧
      (t.isMutable → (t.mutate g).1.isMutable) ∧
      (t.kind = .colour → (t.mutate g).1.isMutable ∧ (t.mutate g).1.text ≠ t.text) := by
  refine ⟨rfl, fun h hk => ?_, fun h => ?_, fun hk => ?_⟩
  · simp [mutate, mutateText_eq_none h hk g]
  · obtain ⟨kind, s⟩ := t
    cases kind with
    | num => exact isMutable_mutate_number g h
    | iteration => exact isMutable_mutate_iteration g h
    | mesh => exact isMutable_mutate_mesh g h
    | colour => exact (isMutable_mutate_colour g).1
    | comment | tab | op | argDelim | newline | motion | colourOp | stateFun | variableName | doOnce | space | unknown =>
      cases h
  · obtain ⟨kind, s⟩ := t
    subst hk
    exact isMutable_mutate_colour g

/-- The greatest count of 64 bits, the next one, which is none any more, and a colour that the palette does not know. -/
theorem mutate_isMutable_counts :
    let greatest : Token := ⟨.iteration, "18446744073709551615 times ->".toList⟩
    let beyond : Token := ⟨.iteration, "18446744073709551616 times ->".toList⟩
    let unlisted : Token := ⟨.colour, "Red".toList⟩
    (greatest.isMutable ∧ ∀ g, (greatest.mutate g).1.isMutable) ∧
      (beyond.isMutable = false ∧ beyond.kind ≠ .colour ∧ ∀ g, beyond.mutate g = (beyond, g)) ∧
      unlisted.kind = .colour ∧ ∀ g, (unlisted.mutate g).1.isMutable := by
  intro greatest beyond unlisted
  have hgreatest : greatest.isMutable := by decide +kernel
  have hbeyond : beyond.isMutable = false := by decide +kernel
  have hkind : beyond.kind ≠ .colour := by decide
  exact ⟨⟨hgreatest, fun g => (mutate_isMutable greatest g).2.2.1 hgreatest⟩,
    ⟨hbeyond, hkind, fun g => (mutate_isMutable beyond g).2.1 hbeyond hkind⟩,
    rfl, fun g => ((mutate_isMutable unlisted g).2.2.2 rfl).1⟩

/-- A name that is not in the palette cannot be varied, and becomes another one whatever is drawn. -/
theorem mutate_unlisted : isMutable ⟨.colour, "Red".toList⟩ = false ∧
    ∀ g : Random.Generator, (mutate ⟨.colour, "Red".toList⟩ g).1 ≠ ⟨.colour, "Red".toList⟩ :=
  ⟨rfl, fun g h => (isMutable_mutate_colour (s := "Red".toList) g).2 (congrArg text h)⟩

end Token

end Autocoder

end LiveSketch
