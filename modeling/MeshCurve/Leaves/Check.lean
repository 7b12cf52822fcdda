import MeshCurve.Leaves.Basic

/-!
# Checking a leaf array

`Leaves.check` looks for the first way in which an array fails to be a tiling of
the root: an invalid element, an inversion, ids that do not increase, a gap.
-/

namespace MeshCurve

inductive LeafDefect (E : Type) where
  | invalid (e : E)
  | unsorted
  | notIncreasing (level index before after : Nat)
  | incomplete
deriving Repr

namespace LeafDefect

variable {E : Type} [Element E]

def message : LeafDefect E → String
  | invalid e => s!"invalid element {Element.describe e}"
  | unsorted => "leaves are not in SFC order"
  | notIncreasing level index before after =>
    s!"linear ids at level {level} not increasing at leaf {index}: {before} then {after}"
  | incomplete => "leaves do not tile the root"

end LeafDefect

namespace Leaves

variable {E : Type} [Element E]

/-- The first place where a list does not increase: its index and the two values. -/
def firstDescent? : (index : Nat) → List Nat → Option (Nat × Nat × Nat)
  | index, a :: b :: rest =>
    if b ≤ a then some (index, a, b) else firstDescent? (index + 1) (b :: rest)
  | _, _ => none

def check (leaves : Leaves E) : Except Fault (Except (LeafDefect E) Unit) :=
  match leaves.toList.find? fun e => !decide (Element.Valid e) with
  | some e => return .error (.invalid e)
  | none => do
    if !(← leaves.isSorted) then return .error .unsorted else
      let finest := (← leaves.maxLevel?).getD 0
      let ids ← leaves.toList.mapM (Element.linearId · finest)
      match firstDescent? 0 ids with
      | some (index, before, after) =>
        return .error (.notIncreasing finest index before after)
      | none =>
        if ← leaves.isComplete then return .ok () else return .error .incomplete

end Leaves

end MeshCurve
