import MeshCurve.Adapt.Progress

/-!
# Adapt rules

The policies that a configured run can choose from.  None of them keeps a state.
-/

namespace MeshCurve.Run

inductive Rule where
  | refineAll
  /-- merge every family that is offered -/
  | coarsenAll
  /-- refine the elements with a face on the root boundary -/
  | refineBoundary
  | keep
deriving DecidableEq, Repr

namespace Rule

def all : List Rule := [refineAll, coarsenAll, refineBoundary, keep]

def name : Rule → String
  | refineAll => "refine_all"
  | coarsenAll => "coarsen_all"
  | refineBoundary => "refine_boundary"
  | keep => "keep"

def label : Rule → String
  | refineAll => "RefineAll"
  | coarsenAll => "CoarsenAll"
  | refineBoundary => "RefineBoundary"
  | keep => "Keep"

def ofName? (name : String) : Option Rule := all.find? (·.name == name)

theorem ofName?_name (r : Rule) : ofName? r.name = some r := by
  cases r <;> rfl

variable {E : Type} [Element E]

/-- Whether some face of the first element lies on the root boundary. -/
def touchesBoundary : List E → Except Fault Bool
  | [] => .error .index
  | e :: _ => (List.range (Element.shape E).numFaces).anyM (Element.isRootBoundary e)

def decide (rule : Rule) (offered : List E) : Except Fault Adapt.Action :=
  match rule with
  | refineAll => return .refine
  | coarsenAll => return if 1 < offered.length then .coarsen else .keep
  | refineBoundary => do
    if ← touchesBoundary offered then return .refine else return .keep
  | keep => return .keep

def policy (rule : Rule) : Adapt.Policy Unit E := fun _ offered => do
  let action ← rule.decide offered
  return (action, ())

end Rule

end MeshCurve.Run
