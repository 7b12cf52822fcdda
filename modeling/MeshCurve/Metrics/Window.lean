import MeshCurve.Fault

/-!
# Rolling windows

The most recent values of a series, up to a fixed number of them.
-/

namespace MeshCurve

structure Window (α : Type) where
  capacity : Nat
  /-- oldest first -/
  items : List α
deriving DecidableEq, Repr

namespace Window

variable {α : Type}

def empty (capacity : Nat) : Window α := ⟨capacity, []⟩

def defaultCapacity : Nat := 128

def size (w : Window α) : Nat := w.items.length

def isEmpty (w : Window α) : Bool := w.items.isEmpty

def push (w : Window α) (a : α) : Window α :=
  { w with items := (if w.capacity ≤ w.size then w.items.drop 1 else w.items) ++ [a] }

def clear (w : Window α) : Window α := { w with items := [] }

def last? (w : Window α) : Option α := w.items.getLast?

/-! ## Windows of words -/

def wordBytes : Nat := 8

/-- An empty window, with room for all that it may come to hold. -/
def ofCapacity (capacity : Nat) : Except Fault (Window Nat) := do
  reserve capacity wordBytes
  return empty capacity

def sumFrom : (total : Nat) → List Nat → Except Fault Nat
  | total, [] => return total
  | total, n :: rest => do
    let total ← word (total + n)
    sumFrom total rest

def sum (w : Window Nat) : Except Fault Nat := sumFrom 0 w.items

/-- The mean as a floating-point quotient; zero if there is nothing to average. -/
def average (w : Window Nat) : Except Fault Float :=
  if w.isEmpty then return 0.0 else do
    let total ← w.sum
    return total.toUInt64.toFloat / w.size.toUInt64.toFloat

def minMax? (w : Window Nat) : Option (Nat × Nat) :=
  match w.items.min?, w.items.max? with
  | some least, some greatest => some (least, greatest)
  | _, _ => none

@[simp] theorem items_empty (n : Nat) : (empty n : Window α).items = [] := rfl

@[simp] theorem items_clear (w : Window α) : w.clear.items = [] := rfl

theorem items_push_of_size_lt {w : Window α} (h : w.size < w.capacity) (a : α) :
    (w.push a).items = w.items ++ [a] := by
  simp [push, Nat.not_le.mpr h]

theorem items_push_of_capacity_le {w : Window α} (h : w.capacity ≤ w.size) (a : α) :
    (w.push a).items = w.items.drop 1 ++ [a] := by
  simp [push, h]

end Window

end MeshCurve
