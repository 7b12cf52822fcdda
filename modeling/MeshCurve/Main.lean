import MeshCurve.Run.Report
import MeshCurve.Run.Toml

/-!
# Command line

Reads the runs of a configuration file, carries them out in order and prints one line
for each.  The exit code is 1 if the file makes no sense or a run fails.
-/

namespace MeshCurve.Run

def Report.line (name : String) (r : Report) : String :=
  s!"{name}: {r.shape.name}, {r.initialLeaves} leaves -> {r.finalLeaves}, " ++
    s!"{r.refinements} refined, {r.coarsenings} coarsened, finest level {r.finestLevel}"

/-- The line printed for a plan, and whether the plan was carried out. -/
def Plan.outcome (plan : Plan) : Bool × String :=
  match plan.run.run with
  | .ok (.ok report) => (true, report.line plan.name)
  | .ok (.error e) => (false, s!"{plan.name}: run failed: {e.message}")
  | .error _ => (false, s!"{plan.name}: run failed: a precondition does not hold")

/-- The plans that a configuration file describes. -/
def plansOfText (text : String) : Except ConfigError (List Plan) :=
  match Toml.read? text with
  | some v => plansOfValue v
  | none => .error .malformed

def runFile (path : String) : IO UInt32 := do
  match plansOfText (← IO.FS.readFile path) with
  | .error e =>
    IO.eprintln e.message
    return 1
  | .ok plans =>
    let outcomes := plans.map Plan.outcome
    for (_, line) in outcomes do
      IO.println line
    let failed := (outcomes.filter fun o => !o.1).length
    if failed = 0 then return 0
    IO.eprintln s!"{failed} of {plans.length} runs failed"
    return 1

end MeshCurve.Run

def main (args : List String) : IO UInt32 := do
  match args with
  | ["--config", path] | ["-c", path] => MeshCurve.Run.runFile path
  | _ =>
    IO.eprintln "usage: meshcurve --config FILE"
    return 2
