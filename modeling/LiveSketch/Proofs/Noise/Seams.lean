import Mathlib.Data.Int.Interval
import Mathlib.Data.Nat.ModEq
import Mathlib.Order.Filter.AtTopBot.Archimedean
import Mathlib.Tactic.FunProp
import Mathlib.Topology.Algebra.Order.Field
import Mathlib.Topology.Instances.Rat
import Mathlib.Topology.Order.AtTopBotIxx
import LiveSketch.Noise.Lattice
import LiveSketch.Proofs.Number.Exact

/-!
# Noise has no seams

A table that is written twice is looked up modulo 256 (`look_congr`), so the value inside a cell depends on the number of
the cell modulo 256 alone. Where two cells meet, each is interpolated between the corners that they share, and the values
are the same (`Meets`); as the cell behind cell 255 is cell 0, the grid closes.

That is about one face at a time. `tiled3` puts the cells side by side, one for each three integers; it is continuous
because neighbours agree, one direction after the other (`continuous_cellwise`), and repeats after 256 cells. It is the
noise wherever 64-bit integers number the cells (`noise3_eq`), and no further (`noise2_unnumbered`).
-/
namespace LiveSketch.Noise

open Filter Set

/-! ## Look-ups -/

namespace Lattice

variable {half : Vector (Fin 256) 256}

/-- Both halves of the table are the same. -/
theorem look_ofTable (half : Vector (Fin 256) 256) (i : Nat) :
    (ofTable half).look i = half.get ⟨i % 256, Nat.mod_lt i (by decide)⟩ := by
  have hentry : ∀ j : Fin 512, (half ++ half).get j = half.get ⟨j.val % 256, Nat.mod_lt _ (by decide)⟩ := by
    rintro ⟨j, hj⟩
    change (half ++ half)[j] = _
    rw [Vector.getElem_append]
    split
    · rename_i hlt
      simp only [Nat.mod_eq_of_lt hlt]
      rfl
    · have hmod : j - 256 = j % 256 := by omega
      simp only [hmod]
      rfl
  have hmod : i % 512 % 256 = i % 256 := by omega
  simp only [look, ofTable, hentry, hmod]

theorem look_congr {i j : Nat} (h : i ≡ j [MOD 256]) : (ofTable half).look i = (ofTable half).look j := by
  have hmod : i % 256 = j % 256 := h
  simp only [look_ofTable, hmod]

end Lattice

/-! ## Faces -/

section

variable {K : Type} [Exact K]

theorem fade_eq (t : K) : fade t = (3 - 2 * t) * t * t := by simp [fade]

@[simp] theorem fade_zero : fade (0 : K) = 0 := by simp [fade_eq]

@[simp] theorem fade_one : fade (1 : K) = 1 := by
  rw [fade_eq]
  norm_num

@[simp] theorem lerp_zero (a b : K) : lerp 0 a b = a := by simp [lerp]

@[simp] theorem lerp_one (a b : K) : lerp 1 a b = b := by simp [lerp]

namespace Lattice

variable {half : Vector (Fin 256) 256} {i i' j j' k k' : Nat}

theorem value1_congr (hi : i ≡ i' [MOD 256]) (x : K) :
    (ofTable half).value1 i x = (ofTable half).value1 i' x := by
  simp only [value1, look_congr hi, look_congr (hi.add_right 1)]

theorem value2_congr (hi : i ≡ i' [MOD 256]) (hj : j ≡ j' [MOD 256]) (x y : K) :
    (ofTable half).value2 i j x y = (ofTable half).value2 i' j' x y := by
  have hj1 (p : Nat) : p + j + 1 ≡ p + j' + 1 [MOD 256] := (hj.add_left p).add_right 1
  simp only [value2, look_congr hi, look_congr (hi.add_right 1), look_congr (hj.add_left _), look_congr (hj1 _)]

theorem value3_congr (hi : i ≡ i' [MOD 256]) (hj : j ≡ j' [MOD 256]) (hk : k ≡ k' [MOD 256]) (x y z : K) :
    (ofTable half).value3 i j k x y z = (ofTable half).value3 i' j' k' x y z := by
  have hj1 (p : Nat) : p + j + 1 ≡ p + j' + 1 [MOD 256] := (hj.add_left p).add_right 1
  have hk1 (p : Nat) : p + k + 1 ≡ p + k' + 1 [MOD 256] := (hk.add_left p).add_right 1
  simp only [value3, look_congr hi, look_congr (hi.add_right 1), look_congr (hj.add_left _), look_congr (hj1 _),
    look_congr (hk.add_left _), look_congr (hk1 _)]

/-- The values of neighbouring cells where they meet. The cell behind cell 255 is cell 0. -/
structure Meets (l : Lattice) (K : Type) [Exact K] : Prop where
  line : ∀ i < 256, l.value1 i (1 : K) = l.value1 ((i + 1) % 256) 0
  planeX : ∀ i < 256, ∀ j < 256, ∀ y : K, l.value2 i j 1 y = l.value2 ((i + 1) % 256) j 0 y
  planeY : ∀ i < 256, ∀ j < 256, ∀ x : K, l.value2 i j x 1 = l.value2 i ((j + 1) % 256) x 0
  spaceX : ∀ i < 256, ∀ j < 256, ∀ k < 256, ∀ y z : K, l.value3 i j k 1 y z = l.value3 ((i + 1) % 256) j k 0 y z
  spaceY : ∀ i < 256, ∀ j < 256, ∀ k < 256, ∀ x z : K, l.value3 i j k x 1 z = l.value3 i ((j + 1) % 256) k x 0 z
  spaceZ : ∀ i < 256, ∀ j < 256, ∀ k < 256, ∀ x y : K, l.value3 i j k x y 1 = l.value3 i j ((k + 1) % 256) x y 0

theorem value1_face (l : Lattice) (i : Nat) : l.value1 i (1 : K) = l.value1 (i + 1) 0 := by simp [value1]

theorem value2_faceX (l : Lattice) (i j : Nat) (y : K) : l.value2 i j 1 y = l.value2 (i + 1) j 0 y := by
  simp [value2]

theorem value2_faceY (l : Lattice) (i j : Nat) (x : K) : l.value2 i j x 1 = l.value2 i (j + 1) x 0 := by
  simp [value2, Nat.add_assoc]

theorem value3_faceX (l : Lattice) (i j k : Nat) (y z : K) : l.value3 i j k 1 y z = l.value3 (i + 1) j k 0 y z := by
  simp [value3]

theorem value3_faceY (l : Lattice) (i j k : Nat) (x z : K) : l.value3 i j k x 1 z = l.value3 i (j + 1) k x 0 z := by
  simp [value3, Nat.add_assoc]

theorem value3_faceZ (l : Lattice) (i j k : Nat) (x y : K) : l.value3 i j k x y 1 = l.value3 i j (k + 1) x y 0 := by
  simp [value3, Nat.add_assoc]

theorem meets_ofTable (half : Vector (Fin 256) 256) : (ofTable half).Meets K where
  line i _ := (value1_face _ i).trans (value1_congr (Nat.mod_modEq _ _).symm _)
  planeX i _ j _ y := (value2_faceX _ i j y).trans (value2_congr (Nat.mod_modEq _ _).symm rfl _ _)
  planeY i _ j _ x := (value2_faceY _ i j x).trans (value2_congr rfl (Nat.mod_modEq _ _).symm _ _)
  spaceX i _ j _ k _ y z := (value3_faceX _ i j k y z).trans (value3_congr (Nat.mod_modEq _ _).symm rfl rfl _ _ _)
  spaceY i _ j _ k _ x z := (value3_faceY _ i j k x z).trans (value3_congr rfl (Nat.mod_modEq _ _).symm rfl _ _ _)
  spaceZ i _ j _ k _ x y := (value3_faceZ _ i j k x y).trans (value3_congr rfl rfl (Nat.mod_modEq _ _).symm _ _ _)

end Lattice

end

/-! ## Cells side by side -/

/-- The number of a cell, which repeats after 256. -/
def wrap (n : ℤ) : Nat := (n % 256).toNat

theorem wrap_add (n : ℤ) : wrap (n + 256) = wrap n := by
  unfold wrap
  omega

theorem wrap_succ (n : ℤ) : wrap (n + 1) = (wrap n + 1) % 256 := by
  unfold wrap
  omega

theorem wrap_lt (n : ℤ) : wrap n < 256 := by
  unfold wrap
  omega

namespace Lattice

variable {K : Type} [Exact K] [FloorRing K]

/-- The values of the cells of a line side by side. -/
def tiled1 (l : Lattice) (x : K) : K := l.value1 (wrap ⌊x⌋) (x - ⌊x⌋)

/-- The values of the cells of the plane side by side. -/
def tiled2 (l : Lattice) (p : K × K) : K := l.value2 (wrap ⌊p.1⌋) (wrap ⌊p.2⌋) (p.1 - ⌊p.1⌋) (p.2 - ⌊p.2⌋)

/-- The values of the cells of space side by side. -/
def tiled3 (l : Lattice) (p : K × K × K) : K :=
  l.value3 (wrap ⌊p.1⌋) (wrap ⌊p.2.1⌋) (wrap ⌊p.2.2⌋) (p.1 - ⌊p.1⌋) (p.2.1 - ⌊p.2.1⌋) (p.2.2 - ⌊p.2.2⌋)

section

variable [Gridded K]

theorem cell_eq {x : K} (hx : Numbered x) : cell x = (wrap ⌊x⌋, x - ⌊x⌋) := by
  simp only [cell, Gridded.floor_def, Gridded.cellIndex_def x hx, wrap]

theorem noise1_eq (l : Lattice) {x : K} (hx : Numbered x) : l.noise1 x = l.tiled1 x := by
  simp only [noise1, cell_eq hx, tiled1]

theorem noise2_eq (l : Lattice) {x y : K} (hx : Numbered x) (hy : Numbered y) : l.noise2 x y = l.tiled2 (x, y) := by
  simp only [noise2, cell_eq hx, cell_eq hy, tiled2]

theorem noise3_eq (l : Lattice) {x y z : K} (hx : Numbered x) (hy : Numbered y) (hz : Numbered z) :
    l.noise3 x y z = l.tiled3 (x, y, z) := by
  simp only [noise3, cell_eq hx, cell_eq hy, cell_eq hz, tiled3]

end

/-- The place 256 cells further on, as long as 64-bit integers number them. -/
theorem cell_add [Gridded K] {x : K} (hx : Numbered x) (hx' : Numbered (x + 256)) : cell (x + 256) = cell x := by
  have hfloor : ⌊x + 256⌋ = ⌊x⌋ + 256 := Int.floor_add_ofNat x 256
  rw [cell_eq hx, cell_eq hx', hfloor, wrap_add]
  push_cast
  rw [add_sub_add_right_eq_sub]

/-! ## Continuity -/

section

variable {X Y : Type} [TopologicalSpace K] [OrderTopology K] [TopologicalSpace X] [TopologicalSpace Y]

/-- What is continuous in each cell of a coordinate is continuous, if neighbouring cells agree where they meet. -/
theorem continuous_cellwise {c : X → K} (hc : Continuous c) {G : ℤ → X → Y} (hG : ∀ n, Continuous (G n))
    (hface : ∀ (n : ℤ) x, c x = n + 1 → G n x = G (n + 1) x) : Continuous fun x => G ⌊c x⌋ x := by
  -- the closed cells cover the line, and only finitely many are near any place
  have hlocal : LocallyFinite fun n : ℤ => Set.preimage c (Icc (n : K) (n + 1)) :=
    (locallyFinite_Icc_of_tendsto (tendsto_intCast_atTop_iff.2 tendsto_id)
      (tendsto_atBot_add_const_right _ 1 (tendsto_intCast_atBot_iff.2 tendsto_id))).preimage_continuous hc
  refine hlocal.continuous ?_ (fun n => isClosed_Icc.preimage hc) fun n => ?_
  · exact iUnion_eq_univ_iff.2 fun x => ⟨⌊c x⌋, Int.floor_le _, (Int.lt_floor_add_one _).le⟩
  · refine (hG n).continuousOn.congr fun x hx => ?_
    rcases hx.2.lt_or_eq with hlt | heq
    · rw [Int.floor_eq_iff.2 ⟨hx.1, hlt⟩]
    · have hfloor : ⌊c x⌋ = n + 1 := by rw [heq, Int.floor_add_one, Int.floor_intCast]
      rw [hfloor, hface n x heq]

end

section

variable {X : Type} [TopologicalSpace X] [TopologicalSpace K] [OrderTopology K] {f g h : X → K}

omit [FloorRing K]

@[fun_prop] theorem continuous_fade (hf : Continuous f) : Continuous fun x => fade (f x) := by
  simp only [fade_eq]
  fun_prop

@[fun_prop] theorem continuous_lerp (hf : Continuous f) (hg : Continuous g) (hh : Continuous h) :
    Continuous fun x => lerp (f x) (g x) (h x) := by
  unfold lerp
  fun_prop

@[fun_prop] theorem continuous_slope1 (n : Nat) (hf : Continuous f) : Continuous fun x => slope1 n (f x) := by
  unfold slope1
  split <;> fun_prop

@[fun_prop] theorem continuous_slope2 (n : Nat) (hf : Continuous f) (hg : Continuous g) :
    Continuous fun x => slope2 n (f x) (g x) := by
  unfold slope2
  dsimp only
  split_ifs <;> fun_prop

@[fun_prop] theorem continuous_slope3 (n : Nat) (hf : Continuous f) (hg : Continuous g) (hh : Continuous h) :
    Continuous fun x => slope3 n (f x) (g x) (h x) := by
  unfold slope3
  dsimp only
  split_ifs <;> fun_prop

@[fun_prop] theorem continuous_value1 (l : Lattice) (i : Nat) (hf : Continuous f) :
    Continuous fun x => l.value1 i (f x) := by
  unfold value1
  fun_prop

@[fun_prop] theorem continuous_value2 (l : Lattice) (i j : Nat) (hf : Continuous f) (hg : Continuous g) :
    Continuous fun x => l.value2 i j (f x) (g x) := by
  unfold value2
  fun_prop

@[fun_prop] theorem continuous_value3 (l : Lattice) (i j k : Nat) (hf : Continuous f) (hg : Continuous g)
    (hh : Continuous h) : Continuous fun x => l.value3 i j k (f x) (g x) (h x) := by
  unfold value3
  fun_prop

end

section

variable [TopologicalSpace K] [OrderTopology K] {l : Lattice}

omit [FloorRing K] [TopologicalSpace K] [OrderTopology K] in
/-- The place where a cell ends is the place where the next one begins. -/
theorem places {x : K} {n : ℤ} (h : x = n + 1) : x - n = 1 ∧ x - (n + 1 : ℤ) = 0 := by
  rw [h]
  push_cast
  exact ⟨add_sub_cancel_left _ _, sub_self _⟩

theorem continuous_tiled1 (hl : l.Meets K) : Continuous (l.tiled1 : K → K) := by
  refine continuous_cellwise (c := fun x : K => x) (G := fun n x => l.value1 (wrap n) (x - n)) continuous_id
    (fun n => by fun_prop) fun n x hx => ?_
  obtain ⟨hend, hbegin⟩ := places hx
  simp only [hend, hbegin, wrap_succ, hl.line _ (wrap_lt n)]

theorem continuous_tiled2 (hl : l.Meets K) : Continuous (l.tiled2 : K × K → K) := by
  refine continuous_cellwise (c := fun p : K × K => p.1)
    (G := fun n p => l.value2 (wrap n) (wrap ⌊p.2⌋) (p.1 - n) (p.2 - ⌊p.2⌋)) (by fun_prop) (fun n => ?_) fun n p hp => ?_
  · refine continuous_cellwise (c := fun p : K × K => p.2)
      (G := fun m p => l.value2 (wrap n) (wrap m) (p.1 - n) (p.2 - m)) (by fun_prop) (fun m => by fun_prop)
      fun m p hp => ?_
    obtain ⟨hend, hbegin⟩ := places hp
    simp only [hend, hbegin, wrap_succ, hl.planeY _ (wrap_lt n) _ (wrap_lt m)]
  · obtain ⟨hend, hbegin⟩ := places hp
    simp only [hend, hbegin, wrap_succ, hl.planeX _ (wrap_lt n) _ (wrap_lt _)]

theorem continuous_tiled3 (hl : l.Meets K) : Continuous (l.tiled3 : K × K × K → K) := by
  refine continuous_cellwise (c := fun p : K × K × K => p.1)
    (G := fun n p => l.value3 (wrap n) (wrap ⌊p.2.1⌋) (wrap ⌊p.2.2⌋) (p.1 - n) (p.2.1 - ⌊p.2.1⌋) (p.2.2 - ⌊p.2.2⌋))
    (by fun_prop) (fun n => ?_) fun n p hp => ?_
  · refine continuous_cellwise (c := fun p : K × K × K => p.2.1)
      (G := fun m p => l.value3 (wrap n) (wrap m) (wrap ⌊p.2.2⌋) (p.1 - n) (p.2.1 - m) (p.2.2 - ⌊p.2.2⌋))
      (by fun_prop) (fun m => ?_) fun m p hp => ?_
    · refine continuous_cellwise (c := fun p : K × K × K => p.2.2)
        (G := fun k p => l.value3 (wrap n) (wrap m) (wrap k) (p.1 - n) (p.2.1 - m) (p.2.2 - k))
        (by fun_prop) (fun k => by fun_prop) fun k p hp => ?_
      obtain ⟨hend, hbegin⟩ := places hp
      simp only [hend, hbegin, wrap_succ, hl.spaceZ _ (wrap_lt n) _ (wrap_lt m) _ (wrap_lt k)]
    · obtain ⟨hend, hbegin⟩ := places hp
      simp only [hend, hbegin, wrap_succ, hl.spaceY _ (wrap_lt n) _ (wrap_lt m) _ (wrap_lt _)]
  · obtain ⟨hend, hbegin⟩ := places hp
    simp only [hend, hbegin, wrap_succ, hl.spaceX _ (wrap_lt n) _ (wrap_lt _) _ (wrap_lt _)]

end

/-- **Noise is seamless.** Let a lattice be made of any 256 entries, in exact arithmetic. The values of cells that share a
face are the same on all of it, and cell 0 comes behind cell 255. So as far as 64-bit integers number the cells, at negative
places too, one octave is continuous on the line, in the plane and in space, and in each direction it is the same 256 cells
further on. -/
theorem seamless [Gridded K] [TopologicalSpace K] [OrderTopology K] (half : Vector (Fin 256) 256) :
    let l := ofTable half
    l.Meets K ∧
      (ContinuousOn (fun x : K => l.noise1 x) {x | Numbered x} ∧
        ContinuousOn (fun p : K × K => l.noise2 p.1 p.2) {p | Numbered p.1 ∧ Numbered p.2} ∧
        ContinuousOn (fun p : K × K × K => l.noise3 p.1 p.2.1 p.2.2)
          {p | Numbered p.1 ∧ Numbered p.2.1 ∧ Numbered p.2.2}) ∧
      ∀ x y z : K, Numbered x → Numbered (x + 256) →
        l.noise1 (x + 256) = l.noise1 x ∧
          (l.noise2 (x + 256) y = l.noise2 x y ∧ l.noise2 y (x + 256) = l.noise2 y x) ∧
          l.noise3 (x + 256) y z = l.noise3 x y z ∧ l.noise3 y (x + 256) z = l.noise3 y x z ∧
            l.noise3 y z (x + 256) = l.noise3 y z x := by
  intro l
  have hmeets : l.Meets K := meets_ofTable half
  refine ⟨hmeets, ⟨?_, ?_, ?_⟩, fun x y z hx hx' => ?_⟩
  · exact (continuous_tiled1 hmeets).continuousOn.congr fun x hx => noise1_eq l hx
  · exact (continuous_tiled2 hmeets).continuousOn.congr fun p hp => noise2_eq l hp.1 hp.2
  · exact (continuous_tiled3 hmeets).continuousOn.congr fun p hp => noise3_eq l hp.1 hp.2.1 hp.2.2
  · simp only [noise1, noise2, noise3, cell_add hx hx', and_self]

omit [FloorRing K] in
/-- A value of the lattice whose table is in order. -/
theorem value2_ordered (i j : Nat) (x y : K) :
    (ofTable ordered).value2 i j x y =
      lerp (fade y)
        (lerp (fade x) (slope2 ((i % 256 + j) % 256) x y) (slope2 (((i + 1) % 256 + j) % 256) (x - 1) y))
        (lerp (fade x) (slope2 ((i % 256 + j + 1) % 256) x (y - 1))
          (slope2 (((i + 1) % 256 + j + 1) % 256) (x - 1) (y - 1))) := by
  have hlook : ∀ k, (ofTable ordered).look k = k % 256 := by
    intro k
    rw [look_ofTable, ordered]
    change ((Vector.ofFn id)[k % 256] : Fin 256).val = _
    rw [Vector.getElem_ofFn]
    rfl
  simp only [value2, hlook, Exact.nat_eq, Nat.cast_one]

/-- From cell -1, which is cell 255, into the next one and 256 cells further on. -/
theorem seamless_ordered :
    let l := ofTable ordered
    (l.value2 255 7 1 (1 / 4 : ℚ) = l.value2 0 7 0 (1 / 4) ∧ l.value2 255 7 1 (1 / 4 : ℚ) = 27 / 128) ∧
      (Numbered (-1 / 2 : ℚ) ∧ Numbered (-1 / 2 + 256 : ℚ)) ∧
      l.noise2 (-1 / 2 + 256 : ℚ) (1 / 4) = l.noise2 (-1 / 2) (1 / 4) ∧ l.noise2 (-1 / 2 : ℚ) (1 / 4) = 43 / 128 := by
  intro l
  have hx : Numbered (-1 / 2 : ℚ) := by norm_num [Numbered]
  have hx' : Numbered (-1 / 2 + 256 : ℚ) := by norm_num [Numbered]
  obtain ⟨hmeets, -, hrepeats⟩ := seamless (K := ℚ) ordered
  have hface : l.value2 255 7 1 (1 / 4 : ℚ) = 27 / 128 := by
    rw [value2_ordered]
    norm_num [slope2, lerp, fade_eq]
  have hcell : cell (-1 / 2 : ℚ) = (255, 1 / 2) := by decide +kernel
  have hcell' : cell (1 / 4 : ℚ) = (0, 1 / 4) := by decide +kernel
  have hvalue : l.noise2 (-1 / 2 : ℚ) (1 / 4) = 43 / 128 := by
    simp only [noise2, hcell, hcell', l, value2_ordered]
    norm_num [slope2, lerp, fade_eq]
  exact ⟨⟨hmeets.planeX 255 (by decide) 7 (by decide) (1 / 4), hface⟩, ⟨hx, hx'⟩,
    (hrepeats (-1 / 2) (1 / 4) 0 hx hx').2.1.1, hvalue⟩

/-- The cell that begins at `2 ^ 63` is not the one that begins 256 before it: no 64-bit integer numbers it, and it takes
the index of the last one that is numbered. -/
theorem noise2_unnumbered :
    (ofTable ordered).noise2 (2 ^ 63 - 256 + 256 : ℚ) (1 / 4) ≠ (ofTable ordered).noise2 (2 ^ 63 - 256) (1 / 4) := by
  have hx : cell (2 ^ 63 - 256 + 256 : ℚ) = (255, 0) := by decide +kernel
  have hx' : cell (2 ^ 63 - 256 : ℚ) = (0, 0) := by decide +kernel
  have hy : cell (1 / 4 : ℚ) = (0, 1 / 4) := by decide +kernel
  simp only [noise2, hx, hx', hy, value2_ordered]
  norm_num [slope2, lerp, fade_eq]

end Lattice

end LiveSketch.Noise
