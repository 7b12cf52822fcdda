import MeshCurve.Element.Basic

/-!
# Pairing old and new leaves

Two leaf arrays that cover the same region in the same order correspond piece by
piece: a leaf that is in both, a leaf and the run it was refined into, a run and
the leaf it was merged into.  The correspondence is read off the two arrays alone,
with one cursor in each.
-/

namespace MeshCurve.Adapt

/-- The leaves that leave and those that take their place. -/
structure Exchange (E : Type) where
  outgoing : List E
  incoming : List E
deriving DecidableEq, Repr

namespace Exchange

variable {E : Type} [DecidableEq E] [Element E]

/-- Number of elements at the head of a list that `a` is an ancestor of. -/
def leadingDescendants (a : E) : (found : Nat) → List E → Except Fault Nat
  | found, [] => return found
  | found, e :: rest => do
    if ← Element.isAncestor a e then leadingDescendants a (found + 1) rest
    else return found

/-- Both lists have to end together. -/
def pairFrom (old new : List E) (paired : Array (Exchange E)) :
    Except Fault (Array (Exchange E)) :=
  match old, new with
  | [], [] => return paired
  | a :: olds, b :: news =>
    if a = b then pairFrom olds news (paired.push ⟨[a], [b]⟩) else do
      let la ← Element.level a
      let lb ← Element.level b
      if la < lb then
        let n ← leadingDescendants a 0 (b :: news)
        pairFrom olds ((b :: news).drop n) (paired.push ⟨[a], (b :: news).take n⟩)
      else
        let n ← leadingDescendants b 0 (a :: olds)
        pairFrom ((a :: olds).drop n) news (paired.push ⟨(a :: olds).take n, [b]⟩)
  | _, _ => .error .contract
termination_by old.length + new.length
decreasing_by
  · simp only [List.length_cons]
    omega
  · simp only [List.length_drop, List.length_cons]
    omega
  · simp only [List.length_drop, List.length_cons]
    omega

/-- The exchanges that turn the old leaves into the new ones. -/
def pair (old new : List E) : Except Fault (List (Exchange E)) := do
  let paired ← pairFrom old new #[]
  return paired.toList

end Exchange

end MeshCurve.Adapt
