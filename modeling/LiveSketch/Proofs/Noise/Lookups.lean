import Mathlib.Logic.Equiv.Basic
import LiveSketch.Proofs.Noise.Seams

/-!
# The table and its look-ups

The table of a lattice begins with the numbers 0 to 255 in order, and its places are exchanged with drawn ones. Each
exchange leaves every number in just one place (`bijective_shuffleStep`), so after all of them each number is still there
once, whatever was drawn (`bijective_shuffle`).

A look-up wraps its index around at the size of the table, and no look-up needs it. `noise1With` to `noise3With` are the
noise for any way of looking an index up, in the order in which the indices are found; if that way is the plain look-up
they are the noise itself, cell by cell (`value3With_look`). If it fails beyond the table (`look?`) they never fail and
give the same values (`draw_permuted`), as a cell and an entry are below 256 each and a corner adds one.
-/
namespace LiveSketch.Noise.Lattice

/-! ## Exchanges -/

/-- After an exchange each of the two places has what the other one had. -/
theorem get_swap {α : Type} {n : Nat} (v : Vector α n) (i j : Fin n) : (v.swap i j).get = v.get ∘ Equiv.swap i j := by
  funext k
  change (v.swap i j)[k.val] = v[(Equiv.swap i j k).val]
  simp only [Vector.getElem_swap, Equiv.swap_apply_def, Fin.ext_iff]
  split_ifs <;> rfl

theorem bijective_ordered : Function.Bijective ordered.get := by
  have hid : ordered.get = id := by
    funext i
    change ordered[i.val] = i
    rw [ordered, Vector.getElem_ofFn]
    rfl
  rw [hid]
  exact Function.bijective_id

section

variable {s : Vector (Fin 256) 256 × Random.Generator}

theorem bijective_shuffleStep (h : Function.Bijective s.1.get) (i : Fin 256) :
    Function.Bijective (shuffleStep s i).1.get := by
  have hswap : (shuffleStep s i).1.get = s.1.get ∘ Equiv.swap i s.2.below256.1 := get_swap _ _ _
  rw [hswap]
  exact h.comp (Equiv.bijective _)

theorem bijective_foldl (h : Function.Bijective s.1.get) (places : List (Fin 256)) :
    Function.Bijective (places.foldl shuffleStep s).1.get := by
  induction places generalizing s with
  | nil => exact h
  | cons i places ih => exact ih (bijective_shuffleStep h i)

end

section

variable {half : Vector (Fin 256) 256} {g g' : Random.Generator}

theorem bijective_shuffle {v : Vector (Fin 256) 256} (hv : Function.Bijective v.get) (h : shuffle v g = (half, g')) :
    Function.Bijective half.get := by
  have hfold := bijective_foldl (s := (v, g)) hv (List.finRange 256)
  rwa [show (List.finRange 256).foldl shuffleStep (v, g) = (half, g') from h] at hfold

/-- Stated of the function and not of its values: applied to a generator, the two sides would be compared by evaluating the
shuffle. -/
theorem draw_def : draw = fun g => match shuffle ordered g with | (half, g) => (ofTable half, g) := rfl

theorem draw_eq (h : shuffle ordered g = (half, g')) : draw g = (ofTable half, g') := by
  have hg := congrFun draw_def g
  rw [h] at hg
  exact hg

/-- The two places of an entry. -/
theorem getElem_ofTable (half : Vector (Fin 256) 256) (i : Fin 256) :
    (ofTable half).table[i.val] = half.get i ∧ (ofTable half).table[i.val + 256] = half.get i := by
  constructor
  · exact Vector.getElem_append_left i.isLt
  · change (half ++ half)[i.val + 256] = half[i.val]
    rw [Vector.getElem_append_right (by omega) (by omega)]
    simp

end

/-! ## Look-ups -/

theorem look_lt (l : Lattice) (i : Nat) : l.look i < 256 := Fin.isLt _

/-- The table entry at an index, if the table has one there. -/
def look? (l : Lattice) (i : Nat) : Option Nat := l.table[i]?.map Fin.val

theorem look?_eq (l : Lattice) {i : Nat} (h : i < 512) : l.look? i = some (l.look i) := by
  simp only [look?, look, Vector.getElem?_eq_getElem h, Nat.mod_eq_of_lt h, Option.map_some]
  rfl

theorem isSome_look? (l : Lattice) (i : Nat) : (l.look? i).isSome ↔ i < 512 := by
  simp [look?]

section

variable {α : Type} [Scalar α] {m : Type → Type} [Monad m] (look : Nat → m Nat)

/-- The value inside the cell `xi` of a line, for a way of looking an index up. -/
def value1With (xi : Nat) (x : α) : m α := do
  let one : α := Scalar.nat 1
  return lerp (fade x) (slope1 (← look xi) x) (slope1 (← look (xi + 1)) (x - one))

/-- The value inside the cell `(xi, yi)` of the plane, for a way of looking an index up. -/
def value2With (xi yi : Nat) (x y : α) : m α := do
  let one : α := Scalar.nat 1
  let p0 := (← look xi) + yi
  let p1 := (← look (xi + 1)) + yi
  return lerp (fade y)
    (lerp (fade x) (slope2 (← look p0) x y) (slope2 (← look p1) (x - one) y))
    (lerp (fade x) (slope2 (← look (p0 + 1)) x (y - one)) (slope2 (← look (p1 + 1)) (x - one) (y - one)))

/-- The value inside the cell `(xi, yi, zi)` of space, for a way of looking an index up. -/
def value3With (xi yi zi : Nat) (x y z : α) : m α := do
  let o : α := Scalar.nat 0
  let one : α := Scalar.nat 1
  let p0 := (← look xi) + yi
  let p00 := (← look p0) + zi
  let p01 := (← look (p0 + 1)) + zi
  let p1 := (← look (xi + 1)) + yi
  let p10 := (← look p1) + zi
  let p11 := (← look (p1 + 1)) + zi
  let corner (i : Nat) (dx dy dz : α) : m α := do return slope3 (← look i) (x - dx) (y - dy) (z - dz)
  return lerp (fade z)
    (lerp (fade y)
      (lerp (fade x) (← corner p00 o o o) (← corner p10 one o o))
      (lerp (fade x) (← corner p01 o one o) (← corner p11 one one o)))
    (lerp (fade y)
      (lerp (fade x) (← corner (p00 + 1) o o one) (← corner (p10 + 1) one o one))
      (lerp (fade x) (← corner (p01 + 1) o one one) (← corner (p11 + 1) one one one)))

/-- The value at a point of the line, for a way of looking an index up. -/
def noise1With (x : α) : m α :=
  let (xi, x) := cell x
  value1With look xi x

/-- The value at a point of the plane, for a way of looking an index up. -/
def noise2With (x y : α) : m α :=
  let (xi, x) := cell x
  let (yi, y) := cell y
  value2With look xi yi x y

/-- The value at a point of space, for a way of looking an index up. -/
def noise3With (x y z : α) : m α :=
  let (xi, x) := cell x
  let (yi, y) := cell y
  let (zi, z) := cell z
  value3With look xi yi zi x y z

end

section

variable {α : Type} [Scalar α] (l : Lattice) (xi yi zi : Nat) (x y z : α)

theorem value1With_look : value1With (m := Id) l.look xi x = l.value1 xi x := rfl

theorem value2With_look : value2With (m := Id) l.look xi yi x y = l.value2 xi yi x y := rfl

theorem value3With_look : value3With (m := Id) l.look xi yi zi x y z = l.value3 xi yi zi x y z := rfl

end

section

variable {α : Type} [Scalar α] {m : Type → Type} [Monad m] [LawfulMonad m] {look : Nat → m Nat} {l : Lattice}
  {xi yi zi : Nat}

/-- What an index of 512 or more would be looked up as makes no difference. -/
theorem value1With_eq (hlook : ∀ i < 512, look i = pure (l.look i)) (hx : xi < 256) (x : α) :
    value1With look xi x = pure (l.value1 xi x) := by
  rw [← value1With_look]
  simp (disch := omega) only [value1With, hlook, pure_bind]
  rfl

theorem value2With_eq (hlook : ∀ i < 512, look i = pure (l.look i)) (hx : xi < 256) (hy : yi < 256) (x y : α) :
    value2With look xi yi x y = pure (l.value2 xi yi x y) := by
  have h0 := l.look_lt xi
  have h1 := l.look_lt (xi + 1)
  rw [← value2With_look]
  simp (disch := omega) only [value2With, hlook, pure_bind]
  rfl

theorem value3With_eq (hlook : ∀ i < 512, look i = pure (l.look i)) (hx : xi < 256) (hy : yi < 256) (hz : zi < 256)
    (x y z : α) : value3With look xi yi zi x y z = pure (l.value3 xi yi zi x y z) := by
  have h0 := l.look_lt xi
  have h1 := l.look_lt (xi + 1)
  have h00 := l.look_lt (l.look xi + yi)
  have h01 := l.look_lt (l.look xi + yi + 1)
  have h10 := l.look_lt (l.look (xi + 1) + yi)
  have h11 := l.look_lt (l.look (xi + 1) + yi + 1)
  rw [← value3With_look]
  simp (disch := omega) only [value3With, hlook, pure_bind]
  rfl

end

/-- Every double is in one of the 256 cells, also what is no number and the infinities. -/
theorem cell_lt (v : Float) : (cell v).1 < 256 := by
  change (if v.floor.isFinite then (v.floor.toInt64.toInt % 256).toNat else 0) < 256
  split <;> omega

/-- **The table is a permutation, and no look-up leaves it.** Whatever the generator, the first half of a drawn table has each
number below 256 in just one place, and the second half repeats it. Whatever the table, the noise of doubles is the same if
look-ups do not wrap around but fail from index 512 on: they all succeed. -/
theorem draw_permuted :
    (∀ g : Random.Generator, let l := (draw g).1
      (∀ n : Fin 256, ∃! i : Fin 256, l.table[i.val] = n) ∧ ∀ i : Fin 256, l.table[i.val + 256] = l.table[i.val]) ∧
    ∀ l : Lattice, (∀ i, (l.look? i).isSome ↔ i < 512) ∧ ∀ x y z : Float,
      noise1With l.look? x = some (l.noise1 x) ∧ noise2With l.look? x y = some (l.noise2 x y) ∧
        noise3With l.look? x y z = some (l.noise3 x y z) := by
  refine ⟨fun g => ?_, fun l => ⟨l.isSome_look?, fun x y z => ?_⟩⟩
  · rcases h : shuffle ordered g with ⟨half, g'⟩
    simp only [draw_eq h, getElem_ofTable, implies_true, and_true]
    exact (bijective_shuffle bijective_ordered h).existsUnique
  · have hlook : ∀ i < 512, l.look? i = pure (l.look i) := fun i hi => l.look?_eq hi
    exact ⟨value1With_eq hlook (cell_lt x) _, value2With_eq hlook (cell_lt x) (cell_lt y) _ _,
      value3With_eq hlook (cell_lt x) (cell_lt y) (cell_lt z) _ _ _⟩

end LiveSketch.Noise.Lattice
