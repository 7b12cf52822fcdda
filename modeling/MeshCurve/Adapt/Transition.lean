import MeshCurve.Element.Basic

/-!
# Transitions

A single change of a leaf array: an element gives way to its children, or a family
to its parent.  The key is the coarser side of the change.
-/

namespace MeshCurve.Adapt

inductive TransitionKind where
  | refine | coarsen
deriving DecidableEq, Repr

structure Transition (E : Type) where
  kind : TransitionKind
  key : E
  added : List E
  removed : List E
deriving DecidableEq, Repr

namespace Transition

variable {E : Type} [Element E]

/-- Replaces an element by its children, unless it is of the finest level. -/
def refine? (e : E) : Except Fault (Option (Transition E)) := do
  let l ← Element.level e
  if (Element.shape E).maxLevel ≤ l then return none else
    let cs ← Element.children e
    return some ⟨.refine, e, cs, [e]⟩

def coarsen? (family : List E) : Except Fault (Option (Transition E)) := do
  if ← Element.isFamily family then
    match family with
    | [] => .error .index
    | first :: _ =>
      let p ← Element.parent first
      return some ⟨.coarsen, p, [p], family⟩
  else return none

theorem added_of_refine? {e : E} {t : Transition E} (h : refine? e = .ok (some t)) :
    ∃ l, Element.level e = .ok l ∧ l < (Element.shape E).maxLevel ∧
      Element.children e = .ok t.added := by
  obtain ⟨l, hl, h⟩ := bind_eq_ok_iff.mp h
  split at h
  · cases h
  · obtain ⟨cs, hcs, h⟩ := bind_eq_ok_iff.mp h
    cases h
    exact ⟨l, hl, by omega, hcs⟩

end Transition

end MeshCurve.Adapt
