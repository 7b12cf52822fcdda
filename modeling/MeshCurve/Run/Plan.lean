import MeshCurve.Run.Document
import MeshCurve.Run.Rule
import MeshCurve.Scheme.Error

/-!
# Plans

A plan describes a run: the shape, the level of the first leaves, and the adapt
passes to make.  A configuration is read in two stages.  First every run is decoded
into a `Draft`, whose fields are of the right kind and range; then the drafts are
validated in order, up to the first that makes no sense.
-/

namespace MeshCurve.Run

/-- A run as it was written, shape and operations still being names. -/
structure Draft where
  name : String
  shapeName : String
  initialLevel : Nat
  passes : Nat
  rule : Rule
  minLevel : Nat
  maxLevel : Option Nat
  recursive : Bool
  maxRefinements : Nat
  maxCoarsenings : Nat
  requiredOps : List String
deriving DecidableEq, Repr

structure Plan where
  name : String
  shape : Shape
  initialLevel : Nat
  passes : Nat
  rule : Rule
  minLevel : Nat
  /-- finest level, if one is given -/
  maxLevel : Option Nat
  recursive : Bool
  maxRefinements : Nat
  maxCoarsenings : Nat
  requiredOps : List Operation
deriving DecidableEq, Repr

/-- The limits of each pass; a finest level that is not given is no limit. -/
def Plan.limits (plan : Plan) : Adapt.Limits where
  minLevel := plan.minLevel
  maxLevel := plan.maxLevel.getD 255
  recursive := plan.recursive
  budget := ⟨plan.maxRefinements, plan.maxCoarsenings⟩

inductive PlanDefect where
  | scheme (cause : SchemeError)
  | tooFine (level : Nat) (shape : Shape)
  | levelsCrossed (minLevel maxLevel : Nat)
deriving DecidableEq, Repr

def PlanDefect.message : PlanDefect → String
  | scheme cause => cause.message
  | tooFine level shape =>
    s!"initial_level {level} exceeds the {shape.name} maximum of {shape.maxLevel}"
  | levelsCrossed minLevel maxLevel =>
    s!"min_level {minLevel} is above max_level {maxLevel}"

inductive ConfigError where
  /-- a field is missing, of the wrong kind or out of range, or the nesting is too
  deep -/
  | malformed
  | noRuns
  | invalidRun (name : String) (defect : PlanDefect)
deriving DecidableEq, Repr

def ConfigError.message : ConfigError → String
  | malformed => "Failed to parse config TOML"
  | noRuns => "Config must have at least one run"
  | invalidRun name defect => s!"Invalid run `{name}`: {defect.message}"

/-! ## Decoding -/

namespace Draft

/-- The fields of a run in the order in which they stand when they are not named. -/
def fieldNames : List String :=
  ["name", "eclass", "initial_level", "passes", "rule", "min_level", "max_level",
   "recursive", "max_refinements", "max_coarsenings", "required_ops"]

/-- The named fields of a run.  A run that is written as a list gives them by position,
at least up to the finest level, and may go on after the last one. -/
def fields? : Value → Option (List (String × Value))
  | .table fields => some fields
  | .list items =>
    if fieldNames.idxOf "max_level" < items.length then some (fieldNames.zip items) else none
  | _ => none

/-- Levels are 8-bit numbers, pass counts 32-bit and budgets 64-bit ones. -/
def ofValue? (v : Value) : Option Draft := do
  let fields ← fields? v
  let name ← Value.required fields "name" Value.string?
  let shapeName ← Value.required fields "eclass" Value.string?
  let initialLevel ← Value.required fields "initial_level" (Value.natBelow? 256)
  let passes ← Value.optional fields "passes" 1 (Value.natBelow? 0x100000000)
  let rule ← Value.optional fields "rule" Rule.keep fun v => v.choice? >>= Rule.ofName?
  let minLevel ← Value.optional fields "min_level" 0 (Value.natBelow? 256)
  let maxLevel ← Value.optional fields "max_level" none fun v =>
    some <$> v.natBelow? 256
  let recursive ← Value.optional fields "recursive" false Value.bool?
  let maxRefinements ← Value.optional fields "max_refinements" 0 (Value.natBelow? wordBound)
  let maxCoarsenings ← Value.optional fields "max_coarsenings" 0 (Value.natBelow? wordBound)
  let requiredOps ← Value.optional fields "required_ops" [] fun v =>
    v.list? >>= fun items => items.mapM Value.string?
  return { name, shapeName, initialLevel, passes, rule, minLevel, maxLevel, recursive,
           maxRefinements, maxCoarsenings, requiredOps }

/-! ## Validation -/

private def named {α : Type} (lookup : Except SchemeError α) : Except PlanDefect α :=
  lookup.mapError .scheme

def validate (d : Draft) : Except PlanDefect Plan := do
  let shape ← named (Shape.ofName d.shapeName)
  let requiredOps ← named (d.requiredOps.mapM Operation.ofName)
  if shape.maxLevel < d.initialLevel then .error (.tooFine d.initialLevel shape)
  match d.maxLevel with
  | some maxLevel =>
    if maxLevel < d.minLevel then .error (.levelsCrossed d.minLevel maxLevel)
  | none => pure ()
  return { d with shape, requiredOps }

end Draft

/-- The drafts in a configuration that can be written down.  Only its field `runs` is
read. -/
def draftsOfValue? (v : Value) : Option (List Draft) := do
  let fields ← if v.isWritable then v.table? else none
  let runs ← Value.required fields "runs" Value.list?
  runs.mapM Draft.ofValue?

def plansOfValue (v : Value) : Except ConfigError (List Plan) :=
  match draftsOfValue? v with
  | none => .error .malformed
  | some [] => .error .noRuns
  | some drafts => drafts.mapM fun d => d.validate.mapError (.invalidRun d.name)

end MeshCurve.Run
