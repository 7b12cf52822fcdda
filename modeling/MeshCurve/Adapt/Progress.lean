import MeshCurve.Adapt.Limits
import MeshCurve.Adapt.Transition

/-!
# Progress of an adapt pass

A policy looks at the leaves it is offered and answers with an action.  It may
keep a state of its own, here called the client's, from one call to the next.
`Progress` is what a pass has gathered so far, the offers made included; a fault
inside the pass hands it on.
-/

namespace MeshCurve.Adapt

inductive Action where
  /-- replace the offered family by its parent -/
  | coarsen
  /-- leave the first offered leaf as it is -/
  | keep
  /-- replace the first offered leaf by its children -/
  | refine
deriving DecidableEq, Repr

namespace Action

/-- Negative numbers coarsen and positive ones refine. -/
def ofSign (n : Int) : Action :=
  if n < 0 then coarsen else if n = 0 then keep else refine

def sign : Action → Int
  | coarsen => -1
  | keep => 0
  | refine => 1

theorem ofSign_sign (a : Action) : ofSign a.sign = a := by
  cases a <;> rfl

end Action

abbrev Policy (Client E : Type) := Client → List E → Except Fault (Action × Client)

structure Progress (Client E : Type) where
  client : Client
  offers : Array (List E)
  leaves : Array E
  groups : Array (Transition E)
  stats : Stats

/-- A computation that a fault may interrupt. -/
abbrev Attempt (Client E : Type) := Except (Interrupted (Progress Client E))

namespace Progress

variable {Client E : Type}

def start (client : Client) : Progress Client E := ⟨client, #[], #[], #[], .zero⟩

def ask (policy : Policy Client E) (p : Progress Client E) (offered : List E) :
    Attempt Client E (Action × Progress Client E) := do
  let asked := { p with offers := p.offers.push offered }
  let (action, client) ← during asked (policy p.client offered)
  return (action, { asked with client })

def keep (p : Progress Client E) (kept : List E) : Progress Client E :=
  { p with
    leaves := p.leaves ++ kept
    stats := { p.stats with kept := p.stats.kept + kept.length } }

/-- Puts the key of a coarsening in place of its family. -/
def merge (p : Progress Client E) (t : Transition E) : Progress Client E :=
  { p with
    leaves := p.leaves.push t.key
    groups := p.groups.push t
    stats := { p.stats with coarsenings := p.stats.coarsenings + 1 } }

/-- Counts a refinement, the children of which are still to come. -/
def split (p : Progress Client E) (t : Transition E) : Progress Client E :=
  { p with
    groups := p.groups.push t
    stats := { p.stats with refinements := p.stats.refinements + 1 } }

def emit (p : Progress Client E) (e : E) : Progress Client E :=
  { p with leaves := p.leaves.push e }

/-! ## The new leaves -/

@[simp] theorem leaves_start (client : Client) :
    (start client : Progress Client E).leaves.toList = [] := rfl

@[simp] theorem leaves_keep (p : Progress Client E) (kept : List E) :
    (p.keep kept).leaves.toList = p.leaves.toList ++ kept := by
  simp [keep]

@[simp] theorem leaves_merge (p : Progress Client E) (t : Transition E) :
    (p.merge t).leaves.toList = p.leaves.toList ++ [t.key] := by
  simp [merge]

@[simp] theorem leaves_split (p : Progress Client E) (t : Transition E) :
    (p.split t).leaves = p.leaves := rfl

@[simp] theorem leaves_emit (p : Progress Client E) (e : E) :
    (p.emit e).leaves.toList = p.leaves.toList ++ [e] := by
  simp [emit]

/-! ## Groups -/

@[simp] theorem groups_keep (p : Progress Client E) (kept : List E) :
    (p.keep kept).groups = p.groups := rfl

@[simp] theorem groups_merge (p : Progress Client E) (t : Transition E) :
    (p.merge t).groups = p.groups.push t := rfl

@[simp] theorem groups_split (p : Progress Client E) (t : Transition E) :
    (p.split t).groups = p.groups.push t := rfl

@[simp] theorem groups_emit (p : Progress Client E) (e : E) : (p.emit e).groups = p.groups := rfl

/-! ## Counts -/

@[simp] theorem stats_keep (p : Progress Client E) (kept : List E) :
    (p.keep kept).stats = { p.stats with kept := p.stats.kept + kept.length } := rfl

@[simp] theorem stats_merge (p : Progress Client E) (t : Transition E) :
    (p.merge t).stats = { p.stats with coarsenings := p.stats.coarsenings + 1 } := rfl

@[simp] theorem stats_split (p : Progress Client E) (t : Transition E) :
    (p.split t).stats = { p.stats with refinements := p.stats.refinements + 1 } := rfl

@[simp] theorem stats_emit (p : Progress Client E) (e : E) : (p.emit e).stats = p.stats := rfl

end Progress

end MeshCurve.Adapt
