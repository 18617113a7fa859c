/-!
# Logs

A log is a list that grows at its end. It keeps its entries the newest first, so that adding one takes
the same time however long the log is; `Log.toList` gives them in their order.
-/
namespace LiveSketch

/-- A list that grows at its end. -/
structure Log (α : Type) where
  /-- The entries, the newest first. -/
  newestFirst : List α := []
  deriving DecidableEq, Repr

namespace Log

variable {α : Type}

/-- The log without entries. -/
def empty : Log α := {}

/-- Adds an entry at the end. -/
def push (l : Log α) (a : α) : Log α := ⟨a :: l.newestFirst⟩

/-- The entries in their order. -/
def toList (l : Log α) : List α := l.newestFirst.reverse

/-- The number of entries. -/
def size (l : Log α) : Nat := l.newestFirst.length

/-- Whether there are no entries. -/
def isEmpty (l : Log α) : Bool := l.newestFirst.isEmpty

/-- The newest entry. -/
def last? (l : Log α) : Option α := l.newestFirst.head?

/-- The entries behind the first `n`. -/
def since (l : Log α) (n : Nat) : List α := (l.newestFirst.take (l.size - n)).reverse

@[simp] theorem toList_empty : (empty : Log α).toList = [] := rfl

@[simp] theorem toList_push (l : Log α) (a : α) : (l.push a).toList = l.toList ++ [a] := by
  simp [toList, push]

@[simp] theorem length_toList (l : Log α) : l.toList.length = l.size := by simp [toList, size]

theorem isEmpty_toList (l : Log α) : l.toList.isEmpty = l.isEmpty := by simp [toList, isEmpty]

theorem getLast?_toList (l : Log α) : l.toList.getLast? = l.last? := by simp [toList, last?]

theorem drop_toList (l : Log α) (n : Nat) : l.toList.drop n = l.since n := by
  simp [toList, since, size, List.drop_reverse]

/-- Logs with the same entries are the same. -/
theorem ext_toList {l k : Log α} (h : l.toList = k.toList) : l = k := by
  cases l; cases k; simpa [toList] using h

end Log

end LiveSketch
