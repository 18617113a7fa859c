import LiveSketch.Text.Utf8

/-!
# Bytes of a text

A text is cut at a byte offset: `dropBytes?` gives the text from there on, and gives none exactly if the
offset falls inside a character (`dropBytes?_eq_some`). Cutting a text where two parts of it meet gives the
second part.
-/
namespace LiveSketch.Text

/-- The UTF-8 form of a text. -/
def bytes (cs : List Char) : List UInt8 := cs.flatMap String.utf8EncodeChar

/-- Some part of the text ends at this byte. -/
def IsBoundary (cs : List Char) (n : Nat) : Prop := ∃ front, front <+: cs ∧ byteLength front = n

theorem byteLength_cons (c : Char) (cs : List Char) :
    byteLength (c :: cs) = c.utf8Size + byteLength cs := rfl

theorem byteLength_append (as bs : List Char) :
    byteLength (as ++ bs) = byteLength as + byteLength bs := by
  induction as with
  | nil => simp [byteLength]
  | cons c as ih => simp [byteLength, ih, Nat.add_assoc]

theorem bytes_append (as bs : List Char) : bytes (as ++ bs) = bytes as ++ bytes bs :=
  List.flatMap_append

@[simp] theorem length_bytes (cs : List Char) : (bytes cs).length = byteLength cs := by
  induction cs with
  | nil => rfl
  | cons c cs ih => simp [bytes, byteLength, ← ih]

/-- The bytes of a part of a text are those between the ends of the part. -/
theorem extract_bytes (front part back : List Char) :
    (bytes (front ++ part ++ back)).extract (byteLength front) (byteLength front + byteLength part) =
      bytes part := by
  rw [List.extract_eq_take_drop, bytes_append, bytes_append, List.append_assoc,
    List.drop_left' (length_bytes front), Nat.add_sub_cancel_left, List.take_left' (length_bytes part)]

theorem byteLength_pos {cs : List Char} (h : cs ≠ []) : 0 < byteLength cs := by
  cases cs with
  | nil => exact absurd rfl h
  | cons c cs => exact Nat.lt_of_lt_of_le c.utf8Size_pos (Nat.le_add_right _ _)

/-- Of two parts at the front of a text the one with fewer bytes is at the front of the other. -/
theorem exists_append_of_byteLength_le {as bs front back : List Char} (h : as ++ bs = front ++ back)
    (hle : byteLength as ≤ byteLength front) : ∃ mid, front = as ++ mid ∧ bs = mid ++ back := by
  rcases List.append_eq_append_iff.1 h with h | ⟨mid, rfl, rfl⟩
  · exact h
  · cases mid with
    | nil => exact ⟨[], by simp, rfl⟩
    | cons c mid =>
      have hpos := byteLength_pos (List.cons_ne_nil c mid)
      rw [byteLength_append] at hle
      omega

/-- What stands behind a part of a text that ends at this byte. -/
theorem dropBytes?_append (front rest : List Char) :
    dropBytes? (byteLength front) (front ++ rest) = some rest := by
  induction front with
  | nil => cases rest <;> rfl
  | cons c front ih =>
    obtain ⟨k, hk⟩ : ∃ k, c.utf8Size = k + 1 := ⟨c.utf8Size - 1, by have := c.utf8Size_pos; omega⟩
    have hn : byteLength (c :: front) = k + byteLength front + 1 := by rw [byteLength, hk]; omega
    rw [hn, List.cons_append, dropBytes?, hk, if_pos (by omega)]
    rwa [show k + byteLength front + 1 - (k + 1) = byteLength front by omega]

/-- A text can be cut at a byte exactly if a part of it ends there. -/
theorem dropBytes?_eq_some {n : Nat} {cs rest : List Char} (hn : n ≤ byteLength cs) :
    dropBytes? n cs = some rest ↔ ∃ front, cs = front ++ rest ∧ byteLength front = n := by
  constructor
  · intro h
    induction cs generalizing n with
    | nil =>
      obtain rfl : n = 0 := Nat.le_zero.1 hn
      cases h
      exact ⟨[], rfl, rfl⟩
    | cons c cs ih =>
      cases n with
      | zero =>
        cases h
        exact ⟨[], rfl, rfl⟩
      | succ n =>
        rw [dropBytes?] at h
        split at h
        · rename_i hc
          obtain ⟨front, rfl, hf⟩ := ih (by rw [byteLength] at hn; omega) h
          exact ⟨c :: front, rfl, by rw [byteLength]; omega⟩
        · cases h
  · rintro ⟨front, rfl, rfl⟩
    exact dropBytes?_append front rest

theorem dropBytes?_eq_none {n : Nat} {cs : List Char} (hn : n ≤ byteLength cs) :
    dropBytes? n cs = none ↔ ¬ IsBoundary cs n := by
  rw [Option.eq_none_iff_forall_ne_some]
  constructor
  · rintro h ⟨front, ⟨rest, rfl⟩, rfl⟩
    exact h rest (dropBytes?_append front rest)
  · intro h rest hr
    obtain ⟨front, rfl, hf⟩ := (dropBytes?_eq_some hn).1 hr
    exact h ⟨front, List.prefix_append _ _, hf⟩

end LiveSketch.Text
