import MeshCurve.Adapt.Pairing
import MeshCurve.Adapt.Refinement
import MeshCurve.Leaves.Basic

/-!
# The adapt pass

One sweep over the leaves of a tree.  Where the next leaves are a family they are
offered together, and elsewhere the next leaf is offered alone.  Coarsening acts
on the whole family; any other answer decides only on the first leaf, and the rest
of the family is offered again.  A change that the limits or the budget forbid
leaves what was offered as it is.
-/

namespace MeshCurve.Adapt

variable {Client E : Type} [Element E]

def coarsen (limits : Limits) (family : List E) (first : E) (p : Progress Client E) :
    Attempt Client E (Progress Client E) := do
  let allowed ← during p (limits.allowsCoarsen first)
  let merged ← if allowed && limits.budget.canCoarsen p.stats.coarsenings then
      during p (Transition.coarsen? family)
    else pure none
  match merged with
  | some t => return p.merge t
  | none => return p.keep family

/-- Acts on the first of the offered leaves.  There is nothing to coarsen here. -/
def decideFirst (limits : Limits) (policy : Policy Client E) (action : Action) (e : E)
    (p : Progress Client E) : Attempt Client E (Progress Client E) :=
  match action with
  | .coarsen => .error ⟨.contract, p⟩
  | .keep => return p.keep [e]
  | .refine => do
    let allowed ← during p (limits.allowsRefine e)
    if allowed && limits.budget.canRefine p.stats.refinements then refine limits policy e p
    else return p.keep [e]

def sweep (limits : Limits) (policy : Policy Client E) (leaves : List E)
    (p : Progress Client E) : Attempt Client E (Progress Client E) :=
  match leaves with
  | [] => return p
  | e :: rest => do
    let family := (e :: rest).take (Element.shape E).numChildren
    let isFamily ← during p (Element.isFamily family)
    let (action, p) ← p.ask policy (if isFamily then family else [e])
    if isFamily ∧ action = .coarsen then
      let p ← coarsen limits family e p
      sweep limits policy (rest.drop (family.length - 1)) p
    else
      let p ← decideFirst limits policy action e p
      sweep limits policy rest p
termination_by leaves.length
decreasing_by
  · simp only [List.length_drop, List.length_cons]
    omega
  · simp only [List.length_cons]
    omega

structure Outcome (Client E : Type) where
  client : Client
  offers : List (List E)
  leaves : Leaves E
  groups : List (Transition E)
  stats : Stats
  exchanges : List (Exchange E)

def adapt [DecidableEq E] (limits : Limits) (policy : Policy Client E) (client : Client)
    (leaves : Leaves E) : Attempt Client E (Outcome Client E) := do
  let p ← sweep limits policy leaves.toList (.start client)
  let exchanges ← during p (Exchange.pair leaves.toList p.leaves.toList)
  return ⟨p.client, p.offers.toList, ⟨p.leaves.toList⟩, p.groups.toList, p.stats, exchanges⟩

end MeshCurve.Adapt
