import MeshCurve.Metrics.Window
import Mathlib.Data.List.DropRight

/-!
# What a window keeps

A window holds the last values that were pushed since it was cleared, as many of them as
there is room for.  A push makes room before it puts the new value in, so that a window of
capacity zero holds one value, as one of capacity one does.
-/

namespace MeshCurve.Window

inductive Operation (α : Type) where
  | push (a : α)
  | clear
deriving DecidableEq, Repr

variable {α : Type}

def Operation.value? : Operation α → Option α
  | push a => some a
  | clear => none

def apply (w : Window α) : Operation α → Window α
  | .push a => w.push a
  | .clear => w.clear

def run (w : Window α) (ops : List (Operation α)) : Window α := ops.foldl apply w

/-- The values pushed after the last clearing. -/
def recent (ops : List (Operation α)) : List α :=
  (ops.rtakeWhile fun op => op.value?.isSome).filterMap Operation.value?

@[simp] theorem recent_nil : recent ([] : List (Operation α)) = [] := by
  simp [recent]

@[simp] theorem recent_push (ops : List (Operation α)) (a : α) :
    recent (ops ++ [.push a]) = recent ops ++ [a] := by
  simp [recent, Operation.value?]

@[simp] theorem recent_clear (ops : List (Operation α)) : recent (ops ++ [.clear]) = [] := by
  simp [recent, Operation.value?]

/-! ## One operation -/

/-- The window holds the last of the given values, oldest first. -/
def Keeps (w : Window α) (values : List α) : Prop := w.items = values.rtake (max w.capacity 1)

variable {w : Window α} {values : List α}

@[simp] theorem capacity_push (w : Window α) (a : α) : (w.push a).capacity = w.capacity := rfl

@[simp] theorem capacity_clear (w : Window α) : w.clear.capacity = w.capacity := rfl

theorem Keeps.size_eq (h : w.Keeps values) : w.size = min (max w.capacity 1) values.length := by
  rw [size, h, List.rtake, List.length_drop]
  omega

theorem keeps_nil (h : w.items = []) : w.Keeps [] := by
  rw [Keeps, h, List.rtake_nil]

/-- The oldest value makes way exactly if it is not among the last ones any more. -/
theorem Keeps.push (h : w.Keeps values) (a : α) : (w.push a).Keeps (values ++ [a]) := by
  obtain ⟨room, last⟩ : ∃ n, max w.capacity 1 = n + 1 := ⟨max w.capacity 1 - 1, by omega⟩
  have size := h.size_eq
  rw [Keeps, last] at h
  rw [Keeps, capacity_push, last, List.rtake_concat_succ]
  by_cases full : w.capacity ≤ w.size
  · rw [items_push_of_capacity_le full, h, List.rtake, List.rtake, List.drop_drop]
    by_cases short : values.length ≤ room
    · -- only a window without capacity is full before anything is in it
      obtain rfl : values = [] := List.length_eq_zero_iff.mp (by omega)
      rw [List.drop_nil, List.drop_nil]
    · congr 2
      omega
  · rw [items_push_of_size_lt (Nat.not_le.mp full), h, List.rtake, List.rtake]
    congr 2
    omega

theorem Keeps.apply (h : w.Keeps values) {ops : List (Operation α)} (same : recent ops = values)
    (op : Operation α) : (w.apply op).Keeps (recent (ops ++ [op])) := by
  cases op with
  | push a =>
      rw [recent_push, same]
      exact h.push a
  | clear =>
      rw [recent_clear]
      exact keeps_nil (items_clear w)

/-! ## Any operations -/

theorem run_append (w : Window α) (ops : List (Operation α)) (op : Operation α) :
    w.run (ops ++ [op]) = (w.run ops).apply op := List.foldl_concat apply w op ops

theorem capacity_run (w : Window α) (ops : List (Operation α)) :
    (w.run ops).capacity = w.capacity := by
  induction ops using List.reverseRecOn with
  | nil => rfl
  | append_singleton ops op ih =>
      rw [run_append, ← ih]
      cases op <;> rfl

theorem keeps_run (n : Nat) (ops : List (Operation α)) :
    ((empty n).run ops).Keeps (recent ops) := by
  induction ops using List.reverseRecOn with
  | nil => exact recent_nil ▸ keeps_nil (items_empty n)
  | append_singleton ops op ih =>
      rw [run_append]
      exact ih.apply rfl op

theorem Keeps.last?_eq (h : w.Keeps values) : w.last? = values.getLast? := by
  rw [last?, h, List.rtake, List.getLast?_drop]
  split
  · next none =>
      obtain rfl : values = [] := List.length_eq_zero_iff.mp (by omega)
      rfl
  · rfl

theorem minMax?_eq_some_iff {w : Window Nat} {least greatest : Nat} :
    w.minMax? = some (least, greatest) ↔
      (least ∈ w.items ∧ ∀ a ∈ w.items, least ≤ a) ∧
        greatest ∈ w.items ∧ ∀ a ∈ w.items, a ≤ greatest := by
  rw [← List.min?_eq_some_iff, ← List.max?_eq_some_iff, minMax?]
  cases w.items.min? <;> cases w.items.max? <;> simp

theorem minMax?_eq_none_iff {w : Window Nat} : w.minMax? = none ↔ w.items = [] := by
  rw [minMax?]
  cases w.items <;> simp

theorem Keeps.items_eq_nil_iff (h : w.Keeps values) : w.items = [] ↔ values = [] := by
  have count : w.items.length = min (max w.capacity 1) values.length := h.size_eq
  rw [← List.length_eq_zero_iff, ← List.length_eq_zero_iff]
  omega

/-- A window holds what its capacity says, unless that is zero and a value has been pushed. -/
theorem Keeps.items_eq_rtake_iff (h : w.Keeps values) :
    w.items = values.rtake w.capacity ↔ 0 < w.capacity ∨ values = [] := by
  rcases Nat.eq_zero_or_pos w.capacity with none | some'
  · rw [none, List.rtake_zero, h.items_eq_nil_iff]
    exact (or_iff_right (Nat.lt_irrefl 0)).symm
  · have room : max w.capacity 1 = w.capacity := Nat.max_eq_left some'
    rw [Keeps, room] at h
    exact iff_of_true h (.inl some')

theorem ofCapacity_eq (n : Nat) :
    ofCapacity n = if n * wordBytes < 0x8000000000000000 then .ok (empty n) else .error .range := by
  rw [ofCapacity, reserve]
  split <;> rfl

/-- Whatever was done to a window, it holds the last values pushed since it was cleared, as many
as it has room for, and this is one if its capacity is zero.  So what it holds is what its
capacity says exactly if that is not zero or nothing has been pushed. -/
theorem holds_most_recent (n : Nat) :
    (∀ (α : Type) (ops : List (Operation α)),
      ((empty n).run ops).items = (recent ops).rtake (max n 1) ∧
      ((empty n).run ops).size = min (max n 1) (recent ops).length ∧
      ((empty n).run ops).last? = (recent ops).getLast? ∧
      (((empty n).run ops).items = (recent ops).rtake n ↔ 0 < n ∨ recent ops = [])) ∧
    (∀ ops : List (Operation Nat),
      (((empty n).run ops).minMax? = none ↔ recent ops = []) ∧
      ∀ least greatest, ((empty n).run ops).minMax? = some (least, greatest) ↔
        (least ∈ (recent ops).rtake (max n 1) ∧ ∀ a ∈ (recent ops).rtake (max n 1), least ≤ a) ∧
          greatest ∈ (recent ops).rtake (max n 1) ∧
            ∀ a ∈ (recent ops).rtake (max n 1), a ≤ greatest) ∧
    ofCapacity n = if n * wordBytes < 0x8000000000000000 then .ok (empty n) else .error .range := by
  have capacity : ∀ {α : Type} (ops : List (Operation α)), ((empty n).run ops).capacity = n :=
    capacity_run (empty n)
  refine ⟨?_, ?_, ofCapacity_eq n⟩
  · intro α ops
    have keeps := keeps_run n ops
    have size := keeps.size_eq
    have items := keeps
    have room := keeps.items_eq_rtake_iff
    rw [Keeps, capacity] at items
    rw [capacity] at size room
    exact ⟨items, size, keeps.last?_eq, room⟩
  · intro ops
    have keeps := keeps_run n ops
    have items := keeps
    rw [Keeps, capacity] at items
    rw [← items]
    exact ⟨minMax?_eq_none_iff.trans keeps.items_eq_nil_iff, fun _ _ => minMax?_eq_some_iff⟩

/-- Without capacity the value is pushed all the same. -/
theorem push_without_capacity :
    ofCapacity 0 = .ok (empty 0) ∧ recent [Operation.push 5] = [5] ∧
      ((empty 0).run [.push 5]).items = [5] ∧ ((empty 0).run [.push 5]).size = 1 ∧
      ((empty 0).run [.push 5]).items ≠ [5].rtake 0 ∧ ¬ ((empty 0).run [.push 5]).size ≤ 0 := by
  decide

end MeshCurve.Window
