import MeshCurve.Adapt.Pass
import MeshCurve.Leaves.Check
import MeshCurve.Metrics.Basic
import MeshCurve.Run.Plan
import MeshCurve.Scheme.Basic

/-!
# Carrying out a plan

`Plan.run` builds the first leaves, makes the passes and checks the leaves before
the first and after every one of them.  It reports the outcome, or the reason why
the plan could not be carried out.
-/

namespace MeshCurve.Run

structure Report where
  shape : Shape
  initialLeaves : Nat
  finalLeaves : Nat
  refinements : Nat
  coarsenings : Nat
  finestLevel : Nat
deriving DecidableEq, Repr

/-- The largest uniform array that a run may start from. -/
def maxInitialLeaves : Nat := 4194304

inductive RunError (E : Type) where
  | lacksOperation (shape : Shape) (cause : SchemeError)
  | noScheme (cause : SchemeError)
  | tooManyLeaves (level : Nat) (shape : Shape)
  | badInitialLeaves (defect : LeafDefect E)
  | badLeavesAfter (pass : Nat) (defect : LeafDefect E)
deriving Repr

def RunError.message {E : Type} [Element E] : RunError E → String
  | lacksOperation shape cause =>
    s!"Scheme table for {shape.name} lacks a required operation: {cause.message}"
  | noScheme cause => cause.message
  | tooManyLeaves level shape =>
    s!"initial_level {level} gives more than {maxInitialLeaves} {shape.name} leaves"
  | badInitialLeaves defect => s!"Initial leaves: {defect.message}"
  | badLeavesAfter pass defect => s!"After pass {pass}: {defect.message}"

/-- Either stage of a run: a fault, an error of the run, or a result. -/
abbrev Staged (E α : Type) := ExceptT (RunError E) (Except Fault) α

variable {E : Type} [DecidableEq E] [Element E]

def ensureTiling (leaves : Leaves E) (err : LeafDefect E → RunError E) : Staged E Unit := do
  match ← liftM leaves.check with
  | .ok () => return ()
  | .error defect => throw (err defect)

def onePass (plan : Plan) (leaves : Leaves E) (metrics : Metrics) :
    Except Fault (Leaves E × Metrics) := do
  let outcome ← (Adapt.adapt plan.limits plan.rule.policy () leaves).mapError (·.fault)
  let metrics ← (metrics.recordPass outcome.leaves outcome.stats none).mapError (·.fault)
  return (outcome.leaves, metrics)

def passesFrom (plan : Plan) : (remaining pass : Nat) → Leaves E → Metrics →
    Staged E (Leaves E × Metrics)
  | 0, _, leaves, metrics => return (leaves, metrics)
  | remaining + 1, pass, leaves, metrics => do
    let (leaves, metrics) ← liftM (onePass plan leaves metrics)
    ensureTiling leaves (.badLeavesAfter pass)
    passesFrom plan remaining (pass + 1) leaves metrics

def runOn (E : Type) [DecidableEq E] [Element E] (plan : Plan) : Staged E Report := do
  let shape := Element.shape E
  if maxInitialLeaves < shape.numChildren.pow plan.initialLevel then
    throw (.tooManyLeaves plan.initialLevel shape)
  let first : Leaves E ← liftM (Leaves.uniform plan.initialLevel : Except Fault (Leaves E))
  ensureTiling first .badInitialLeaves
  let (last, metrics) ← passesFrom plan plan.passes 0 first .initial
  -- the histogram is only logged, but it has to exist
  let _ ← liftM last.countPerLevel
  let finest ← liftM last.maxLevel?
  return {
    shape
    initialLeaves := first.size
    finalLeaves := last.size
    refinements := metrics.totalRefinements
    coarsenings := metrics.totalCoarsenings
    finestLevel := finest.getD 0 }

/-- Carries out a plan, provided that the shape supports what the plan requires. -/
def Plan.run (plan : Plan) : Staged plan.shape.Carrier Report :=
  match SchemeTable.ofShapes [plan.shape] plan.requiredOps with
  | .error cause => throw (.lacksOperation plan.shape cause)
  | .ok table =>
    match table.scheme plan.shape with
    | .error cause => throw (.noScheme cause)
    | .ok _ => runOn plan.shape.Carrier plan

end MeshCurve.Run
