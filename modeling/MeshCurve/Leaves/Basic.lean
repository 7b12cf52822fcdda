import MeshCurve.Digit.Radix
import MeshCurve.Element.Basic

/-!
# Leaf arrays

The leaves of a tree in curve order.  The tree itself is implicit: a family is a
run of siblings, and a leaf of level `l` covers `numChildren ^ (finest - l)`
consecutive ids of the finest level.
-/

namespace MeshCurve

structure Leaves (E : Type) where
  toList : List E
deriving DecidableEq, Repr

namespace Leaves

variable {E : Type}

def empty : Leaves E := ⟨[]⟩

def size (leaves : Leaves E) : Nat := leaves.toList.length

def isEmpty (leaves : Leaves E) : Bool := leaves.toList.isEmpty

def push (leaves : Leaves E) (e : E) : Leaves E := ⟨leaves.toList ++ [e]⟩

def reverse (leaves : Leaves E) : Leaves E := ⟨leaves.toList.reverse⟩

def remove (leaves : Leaves E) (i : Nat) : Except Fault (Leaves E) :=
  if i < leaves.size then return ⟨leaves.toList.eraseIdx i⟩ else .error .index

@[simp] theorem toList_push (leaves : Leaves E) (e : E) :
    (leaves.push e).toList = leaves.toList ++ [e] := rfl

@[simp] theorem toList_reverse (leaves : Leaves E) :
    leaves.reverse.toList = leaves.toList.reverse := rfl

variable [Element E]

/-! ## Uniform leaves -/

def walkFrom (level : Nat) : (steps : Nat) → (current : E) → (walked : Array E) →
    Except Fault (Array E)
  | 0, current, walked => return walked.push current
  | steps + 1, current, walked => do
    let next ← Element.successor current level
    walkFrom level steps next (walked.push current)

/-- Every element of `level`, by successive steps from the first. -/
def uniform (level : Nat) : Except Fault (Leaves E) := do
  require (level ≤ (Element.shape E).maxLevel)
  let count ← Radix.pow (Element.shape E).numChildren level
  reserve count (Element.shape E).recordBytes
  let first ← Element.firstDescendant (Element.root : E) level
  let walked ← walkFrom level (count - 1) first #[]
  return ⟨walked.toList⟩

/-! ## Levels -/

def levels (leaves : Leaves E) : Except Fault (List Nat) :=
  leaves.toList.mapM Element.level

def maxLevel? (leaves : Leaves E) : Except Fault (Option Nat) := do
  let ls ← leaves.levels
  return ls.max?

def minLevel? (leaves : Leaves E) : Except Fault (Option Nat) := do
  let ls ← leaves.levels
  return ls.min?

/-- Levels that a histogram distinguishes. -/
def histogramSize : Nat := 31

def countPerLevel (leaves : Leaves E) : Except Fault (List Nat) := do
  let ls ← leaves.levels
  if ∀ l ∈ ls, l < histogramSize then
    return (List.range histogramSize).map ls.count
  else .error .index

/-! ## Order -/

def isSortedList : List E → Except Fault Bool
  | a :: b :: rest => do
    let o ← Element.compare a b
    if o = .lt then isSortedList (b :: rest) else return false
  | _ => return true

/-- Whether every leaf comes strictly before the next. -/
def isSorted (leaves : Leaves E) : Except Fault Bool := isSortedList leaves.toList

def precedes (a b : E) : Bool :=
  match Element.compare a b with
  | .ok o => o != .gt
  | .error _ => true

/-- Restores curve order.  An element that cannot be compared with itself cannot
be compared at all. -/
def sort (leaves : Leaves E) : Except Fault (Leaves E) :=
  if leaves.size ≤ 1 then return leaves else do
    let _ ← leaves.toList.mapM fun e => Element.compare e e
    return ⟨leaves.toList.mergeSort precedes⟩

/-- Halves a window until one candidate is left.  The upper half is kept unless it
starts beyond `e`. -/
def search (e : E) (window : List E) : Except Fault Bool :=
  if h : 1 < window.length then do
    have inside : window.length / 2 < window.length := by omega
    let o ← Element.compare window[window.length / 2] e
    if o = .gt then search e (window.take (window.length - window.length / 2))
    else search e (window.drop (window.length / 2))
  else
    match window with
    | [] => return false
    | candidate :: _ => do
      let o ← Element.compare candidate e
      return o = .eq
termination_by window.length
decreasing_by
  · simp only [List.length_take]
    omega
  · simp only [List.length_drop]
    omega

def contains (leaves : Leaves E) (e : E) : Except Fault Bool := search e leaves.toList

/-! ## Completeness -/

/-- Whether the leaves continue from id `next` to the end without gap or overlap. -/
def tilesFrom (finest : Nat) : (next : Nat) → List E → Except Fault Bool
  | next, [] => do
    let total ← Radix.pow (Element.shape E).numChildren finest
    return next = total
  | next, e :: rest => do
    let id ← Element.linearId e finest
    if id ≠ next then return false else
      let l ← Element.level e
      let covered ← Radix.pow (Element.shape E).numChildren (finest - l)
      let stop ← word (next + covered)
      tilesFrom finest stop rest

def isComplete (leaves : Leaves E) : Except Fault Bool := do
  match ← leaves.maxLevel? with
  | none => return false
  | some finest => tilesFrom finest 0 leaves.toList

end Leaves

end MeshCurve
