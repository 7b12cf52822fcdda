import MeshCurve.Adapt.Limits
import MeshCurve.Leaves.Basic
import MeshCurve.Metrics.Window

/-!
# Metrics of a run

Counts gathered over the passes of a run: the leaves of each level after the last
pass, totals over all passes, and the most recent pass times.  While collection is
switched off nothing is recorded.
-/

namespace MeshCurve

structure Metrics where
  collecting : Bool
  /-- leaves of each level after the last pass -/
  leavesPerLevel : List Nat
  totalRefinements : Nat
  totalCoarsenings : Nat
  passes : Nat
  /-- recent pass times in microseconds -/
  timings : Window Nat
  lastTiming : Nat
deriving DecidableEq, Repr

namespace Metrics

def initial : Metrics :=
  ⟨true, List.replicate Leaves.histogramSize 0, 0, 0, 0, .empty Window.defaultCapacity, 0⟩

def reset (m : Metrics) : Metrics :=
  { m with
    leavesPerLevel := List.replicate Leaves.histogramSize 0
    timings := m.timings.clear
    lastTiming := 0 }

def recordTiming (m : Metrics) (microseconds : Nat) : Metrics :=
  if m.collecting then
    { m with timings := m.timings.push microseconds, lastTiming := microseconds }
  else m

def updateLeaves {E : Type} [Element E] (m : Metrics) (leaves : Leaves E) :
    Except Fault Metrics :=
  if m.collecting then do
    let counts ← leaves.countPerLevel
    return { m with leavesPerLevel := counts }
  else return m

/-- Records a pass that ended with the given leaves.  The counters are words, and a
counter that overflows stops the record where it stands. -/
def recordPass {E : Type} [Element E] (m : Metrics) (leaves : Leaves E)
    (stats : Adapt.Stats) (microseconds : Option Nat) : Except (Interrupted Metrics) Metrics :=
  if !m.collecting then return m else do
    let m ← during m (m.updateLeaves leaves)
    let refinements ← during m (word (m.totalRefinements + stats.refinements))
    let m := { m with totalRefinements := refinements }
    let coarsenings ← during m (word (m.totalCoarsenings + stats.coarsenings))
    let m := { m with totalCoarsenings := coarsenings }
    let passes ← during m (word (m.passes + 1))
    let m := { m with passes }
    match microseconds with
    | some us => return m.recordTiming us
    | none => return m

def totalLeaves (m : Metrics) : Nat := m.leavesPerLevel.foldl (· + ·) 0

def finestLevel? (m : Metrics) : Option Nat :=
  ((List.range m.leavesPerLevel.length).filter
    fun l => 0 < m.leavesPerLevel.getD l 0).getLast?

def averageTiming (m : Metrics) : Except Fault Float := m.timings.average

end Metrics

end MeshCurve
