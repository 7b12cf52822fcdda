import MeshCurve.Element.Basic

/-!
# Limits of an adapt pass

How fine and how coarse the leaves may become, how many changes one pass may
make, and the counts that it reports.
-/

namespace MeshCurve.Adapt

/-- The number of changes that one pass may make; zero means any number. -/
structure Budget where
  maxRefinements : Nat
  maxCoarsenings : Nat
deriving DecidableEq, Repr

namespace Budget

def unlimited : Budget := ⟨0, 0⟩

def incremental : Budget := ⟨32, 32⟩

def canRefine (b : Budget) (performed : Nat) : Bool :=
  b.maxRefinements = 0 ∨ performed < b.maxRefinements

def canCoarsen (b : Budget) (performed : Nat) : Bool :=
  b.maxCoarsenings = 0 ∨ performed < b.maxCoarsenings

end Budget

structure Limits where
  /-- coarsest level that coarsening may reach -/
  minLevel : Nat
  /-- finest level that refinement may reach, next to that of the shape -/
  maxLevel : Nat
  /-- offer new children again within the pass -/
  recursive : Bool
  budget : Budget
deriving DecidableEq, Repr

namespace Limits

def unbounded : Limits := ⟨0, 255, false, .unlimited⟩

variable {E : Type} [Element E]

def effectiveMaxLevel (E : Type) [Element E] (limits : Limits) : Nat :=
  min limits.maxLevel (Element.shape E).maxLevel

def allowsRefine (limits : Limits) (e : E) : Except Fault Bool := do
  let l ← Element.level e
  return l < limits.effectiveMaxLevel E

def allowsCoarsen (limits : Limits) (e : E) : Except Fault Bool := do
  let l ← Element.level e
  return limits.minLevel < l

end Limits

structure Stats where
  refinements : Nat
  coarsenings : Nat
  kept : Nat
deriving DecidableEq, Repr

namespace Stats

def zero : Stats := ⟨0, 0, 0⟩

def transitions (s : Stats) : Nat := s.refinements + s.coarsenings

def isUnchanged (s : Stats) : Bool := s.transitions = 0

end Stats

end MeshCurve.Adapt
