import LiveSketch.Proofs.Script.Parts
import LiveSketch.Script.Parser

/-!
# Items and parts

What an `else` is attached to is the same with and without places (`attachAll_erase`), and the same in every
view of a sketch (`attachAll_view`): in every view the last statement of a part is a conditional if the part
is one.
-/
namespace LiveSketch.Script

open LiveSketch.Script.Parser

namespace Parser

/-- The item with all places forgotten. -/
def Item.erase : Item → Item
  | .stmt s => .stmt s.erase
  | .otherwise condition body _ => .otherwise (condition.map Expr.erase) (eraseBlock body) 0

/-- A change of statements that leaves the conditionals where they are. -/
structure Keeps (f : Stmt → Stmt) (h : Expr → Expr) : Prop where
  branch : ∀ c t e, f (.branch c t e) = .branch (h c) (t.map f) (e.map (·.map f))
  other : ∀ s, (∀ c t e, s ≠ .branch c t e) → ∀ c t e, f s ≠ .branch c t e

/-- The item with its statements changed, and without its place. -/
def Item.map (f : Stmt → Stmt) (h : Expr → Expr) : Item → Item
  | .stmt s => .stmt (f s)
  | .otherwise condition body _ => .otherwise (condition.map h) (body.map f) 0

namespace Keeps

variable {f : Stmt → Stmt} {h : Expr → Expr}

theorem closeElse? (k : Keeps f h) (tail : List Stmt) (s : Stmt) :
    closeElse? (tail.map f) (f s) = (Parser.closeElse? tail s).map f := by
  fun_induction Parser.closeElse? tail s with
  | case1 c t => simp [k.branch, Parser.closeElse?]
  | case2 c t inner ih => simp [k.branch, Parser.closeElse?, ih, Function.comp_def]
  | case3 s h₁ h₂ =>
    by_cases hs : ∃ c t e, s = .branch c t e
    · obtain ⟨c, t, e, rfl⟩ := hs
      match e with
      | none => exact absurd rfl (h₁ c t)
      | some [] => simp [k.branch, Parser.closeElse?]
      | some [inner] => exact absurd rfl (h₂ c t inner)
      | some (_ :: _ :: _) => simp [k.branch, Parser.closeElse?]
    · have hne := k.other s fun c t e he => hs ⟨c, t, e, he⟩
      rw [Parser.closeElse?]
      · rfl
      · exact fun c t => hne c t none
      · exact fun c t inner => hne c t (some [inner])

theorem elseTail (k : Keeps f h) (condition : Option Expr) (body : List Stmt) :
    elseTail (condition.map h) (body.map f) = (Parser.elseTail condition body).map f := by
  cases condition with
  | none => rfl
  | some c => simp [Parser.elseTail, k.branch]

/-- An item is attached in the same way when it is changed. -/
theorem attach (k : Keeps f h) (done : List Stmt) (item : Item) :
    (attach (done.map f) (item.map f h)).toOption = (Parser.attach done item).toOption.map (·.map f) := by
  cases item with
  | stmt s => rfl
  | otherwise condition body offset =>
    cases done with
    | nil => rfl
    | cons last before =>
      simp only [Parser.attach, Item.map, List.map_cons, k.elseTail, k.closeElse?]
      cases Parser.closeElse? (Parser.elseTail condition body) last <;> rfl

end Keeps

theorem toOption_eq_some {ε α : Type} {x : Except ε α} {a : α} : x.toOption = some a ↔ x = .ok a := by
  cases x <;> simp [Except.toOption]

theorem attachAll_nil (done : List Stmt) : attachAll done [] = .ok done := rfl

theorem attachAll_cons (done : List Stmt) (item : Item) (items : List Item) :
    attachAll done (item :: items) = attach done item >>= fun done => attachAll done items := by
  rw [attachAll, List.foldlM_cons]
  rfl

theorem attachAll_append (done : List Stmt) (items items' : List Item) :
    attachAll done (items ++ items') = attachAll done items >>= fun done => attachAll done items' := by
  rw [attachAll, List.foldlM_append]
  rfl

theorem Keeps.attachAll {f : Stmt → Stmt} {h : Expr → Expr} (k : Keeps f h) (items : List Item) :
    ∀ done : List Stmt, (attachAll (done.map f) (items.map (Item.map f h))).toOption =
      (Parser.attachAll done items).toOption.map (·.map f) := by
  induction items with
  | nil => exact fun _ => rfl
  | cons item items ih =>
    intro done
    have hfirst := k.attach done item
    rw [List.map_cons, attachAll_cons, attachAll_cons]
    cases hd : Parser.attach done item with
    | error r =>
      rw [hd] at hfirst
      cases he : Parser.attach (done.map f) (item.map f h) with
      | error r' => rfl
      | ok d =>
        rw [he] at hfirst
        cases hfirst
    | ok d =>
      rw [hd] at hfirst
      rw [toOption_eq_some.1 hfirst]
      exact ih d

theorem keeps_erase : Keeps Stmt.erase Expr.erase where
  branch c t e := by cases e <;> simp [Stmt.erase, eraseElse, eraseBlock_eq_map]
  other s hs := by
    cases s with
    | branch c t e => exact absurd rfl (hs c t e)
    | _ => exact nofun

theorem attachAll_erase (items : List Item) (done : List Stmt) :
    (attachAll (eraseBlock done) (items.map Item.erase)).toOption =
      (attachAll done items).toOption.map eraseBlock := by
  have hitem : Item.erase = Item.map Stmt.erase Expr.erase := by
    funext item
    cases item <;> simp [Item.erase, Item.map, eraseBlock_eq_map]
  have hblock : eraseBlock = (·.map Stmt.erase) := funext eraseBlock_eq_map
  rw [hitem, hblock]
  exact keeps_erase.attachAll items done

/-- Items can be attached if they can be without their places. -/
theorem attachAll_eq_ok {done : List Stmt} {items : List Item} {found : List Stmt} :
    attachAll (eraseBlock done) (items.map Item.erase) = .ok found ↔
      ∃ found', attachAll done items = .ok found' ∧ eraseBlock found' = found := by
  simp only [← toOption_eq_some, attachAll_erase, Option.map_eq_some_iff]

end Parser

/-! ## Items of a sketch -/

variable {n : Nat}

/-- An item of a block of a sketch: a part, or an `else` line that belongs to the part before it. -/
inductive PartItem (n : Nat) where
  | part (p : Part n)
  | otherwise (condition : Option Expr) (body : List (Part n))

/-- The items that stand for an item of a sketch in a script. -/
def PartItem.view (v : View) : PartItem n → List Item
  | .part p => (p.view v).map .stmt
  | .otherwise condition body => [.otherwise condition (viewAll v body) 0]

/-- The items that stand for items of a sketch. -/
def viewItems (v : View) (items : List (PartItem n)) : List Item := items.flatMap (·.view v)

/-- What an `else` adds to the conditional before it. -/
def elseParts (condition : Option Expr) (body : List (Part n)) : List (Part n) :=
  match condition with
  | some c => [.branch c body none]
  | none => body

theorem viewAll_elseParts (v : View) (condition : Option Expr) (body : List (Part n)) :
    viewAll v (elseParts condition body) = elseTail condition (viewAll v body) := by
  cases condition with
  | none => rfl
  | some c => exact viewAll_singleton v _

/-- In a script without reports each part is one statement. -/
theorem Part.view_loops (count : Nat → Nat) (p : Part n) : ∃ s, p.view (.loops count) = [s] := by
  cases p with
  | once i inline body => cases inline <;> exact ⟨_, rfl⟩
  | _ => exact ⟨_, rfl⟩

/-- Where an `else` can be attached in one view it can be attached in all. -/
theorem closeElse?_view {count : Nat → Nat} {tail : List (Part n)} : ∀ {last : Part n} {s s' : Stmt},
    last.view (.loops count) = [s] → closeElse? (viewAll (.loops count) tail) s = some s' →
      ∃ last' : Part n, ∀ v, ∃ t t', last.view v = [t] ∧ last'.view v = [t'] ∧
        closeElse? (viewAll v tail) t = some t'
  | .branch c t none, _, _, hs, h => ⟨.branch c t (some tail), fun v => ⟨_, _, rfl, rfl, rfl⟩⟩
  | .branch c t (some [inner]), _, _, hs, h => by
    obtain ⟨si, hsi⟩ := inner.view_loops count
    cases hs
    simp only [viewElse, viewAll, hsi, List.append_nil, closeElse?] at h
    obtain ⟨si', hi, -⟩ := Option.map_eq_some_iff.1 h
    obtain ⟨inner', hinner⟩ := closeElse?_view hsi hi
    refine ⟨.branch c t (some [inner']), fun v => ?_⟩
    obtain ⟨ti, ti', hti, hti', hv⟩ := hinner v
    refine ⟨_, _, rfl, rfl, ?_⟩
    simp [viewElse, viewAll, hti, hti', closeElse?, hv]
  | .branch c t (some []), _, _, hs, h => by
    cases hs
    cases h
  | .branch c t (some (p :: q :: ps)), _, _, hs, h => by
    obtain ⟨sp, hp⟩ := p.view_loops count
    obtain ⟨sq, hq⟩ := q.view_loops count
    cases hs
    simp only [viewElse, viewAll, hp, hq, List.cons_append, List.nil_append, closeElse?] at h
    cases h
  | .expr _, _, _, hs, h | .assign _ _ _, _, _, hs, h | .loop _ _, _, _, hs, h => by
    cases hs
    cases h
  | .once _ true _, _, _, hs, h | .once _ false _, _, _, hs, h => by
    cases hs
    cases h

theorem attachAll_stmts (done ss : List Stmt) :
    attachAll done (ss.map .stmt) = .ok (ss.reverse ++ done) := by
  induction ss generalizing done with
  | nil => rfl
  | cons s ss ih =>
    rw [List.map_cons, attachAll_cons, attach, ok_bind, ih, List.reverse_cons, List.append_assoc]
    rfl

theorem attach_view {count : Nat → Nat} {parts : List (Part n)} {item : PartItem n} {found : List Stmt}
    (h : attachAll (viewAll (.loops count) parts).reverse (item.view (.loops count)) = .ok found) :
    ∃ parts' : List (Part n), ∀ v base, attachAll ((viewAll v parts).reverse ++ base) (item.view v) =
      .ok ((viewAll v parts').reverse ++ base) := by
  cases item with
  | part p =>
    refine ⟨parts ++ [p], fun v base => ?_⟩
    rw [PartItem.view, attachAll_stmts, viewAll_append, viewAll_singleton, List.reverse_append,
      List.append_assoc]
  | otherwise condition body =>
    simp only [PartItem.view, attachAll_cons, attachAll_nil] at h ⊢
    obtain ⟨d, h, -⟩ := bind_eq_ok.1 h
    rcases List.eq_nil_or_concat parts with rfl | ⟨before, last, rfl⟩
    · cases h
    obtain ⟨s, hs⟩ := last.view_loops count
    rw [List.concat_eq_append, viewAll_append, viewAll_singleton, hs, List.reverse_append] at h
    simp only [List.reverse_singleton, List.singleton_append, attach] at h
    split at h
    · rename_i s' hc
      rw [← viewAll_elseParts] at hc
      obtain ⟨last', hlast⟩ := closeElse?_view hs hc
      refine ⟨before ++ [last'], fun v base => ?_⟩
      obtain ⟨t, t', ht, ht', hv⟩ := hlast v
      rw [viewAll_elseParts] at hv
      rw [List.concat_eq_append, viewAll_append, viewAll_singleton, ht, viewAll_append, viewAll_singleton, ht']
      simp only [List.reverse_append, List.reverse_singleton, List.cons_append, attach, hv]
      rfl
    · cases h

/-- Items of a sketch are attached in the same way in every view, whatever stands before them. -/
theorem attachAll_view {count : Nat → Nat} (items : List (PartItem n)) : ∀ {parts : List (Part n)}
    {found : List Stmt},
    attachAll (viewAll (.loops count) parts).reverse (viewItems (.loops count) items) = .ok found →
      ∃ parts' : List (Part n), ∀ v base,
        attachAll ((viewAll v parts).reverse ++ base) (viewItems v items) =
          .ok ((viewAll v parts').reverse ++ base) := by
  induction items with
  | nil => exact fun {parts _} _ => ⟨parts, fun v base => rfl⟩
  | cons item items ih =>
    intro parts found h
    simp only [viewItems, List.flatMap_cons, attachAll_append] at h ⊢
    obtain ⟨done, hfirst, h⟩ := bind_eq_ok.1 h
    obtain ⟨parts₁, h₁⟩ := attach_view hfirst
    have hdone := h₁ (.loops count) []
    rw [List.append_nil, List.append_nil, hfirst] at hdone
    obtain rfl := Except.ok.inj hdone
    obtain ⟨parts', h'⟩ := ih h
    exact ⟨parts', fun v base => by rw [h₁ v base, ok_bind]; exact h' v base⟩

/-- Where the items of a line are attached in one view they are in all. -/
theorem attachAll_of_view {count : Nat → Nat} {done found : List Stmt} {items : List Item} {parts : List (Part n)}
    {lineItems : List (PartItem n)} (hd : eraseBlock done = (viewAll (.loops count) parts).reverse)
    (hi : items.map Item.erase = viewItems (.loops count) lineItems) (h : attachAll done items = .ok found) :
    ∃ parts' : List (Part n), ∀ {v base done' items'}, eraseBlock done' = (viewAll v parts).reverse ++ base →
      items'.map Item.erase = viewItems v lineItems →
        ∃ found', attachAll done' items' = .ok found' ∧ eraseBlock found' = (viewAll v parts').reverse ++ base := by
  have herased := attachAll_eq_ok.2 ⟨found, h, rfl⟩
  rw [hd, hi] at herased
  obtain ⟨parts', hattach⟩ := attachAll_view lineItems herased
  refine ⟨parts', fun {v base done' items'} hd' hi' => attachAll_eq_ok.1 ?_⟩
  rw [hd', hi']
  exact hattach v base

end LiveSketch.Script
