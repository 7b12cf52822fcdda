import MeshCurve.Adapt.Progress

/-!
# Refining one leaf

Refinement works on a stack of pending elements.  A step takes the top element
and either splits it, putting its children on the stack in curve order, or emits
it as a leaf.  The first element is split because that has been decided; after
that an element is split only in a recursive pass, and only if the limits, the
budget and the policy agree.

Every step lowers the weight of the stack, which counts the nodes that could
still be visited below it.
-/

namespace MeshCurve.Adapt

structure Refinement (Client E : Type) where
  pending : List E
  /-- the next split has already been decided -/
  requested : Bool
  progress : Progress Client E

namespace Refinement

variable {Client E : Type} [Element E]

/-- Whether to split an element, asking the policy if nothing else decides. -/
def wantsSplit (limits : Limits) (policy : Policy Client E) (requested : Bool)
    (p : Progress Client E) (e : E) : Attempt Client E (Bool × Progress Client E) :=
  if requested then return (true, p)
  else if !limits.recursive then return (false, p)
  else do
    let allowed ← during p (limits.allowsRefine e)
    if allowed && limits.budget.canRefine p.stats.refinements then
      let (action, p) ← p.ask policy [e]
      return (action = .refine, p)
    else return (false, p)

def split? (p : Progress Client E) (e : E) : Bool → Attempt Client E (Option (Transition E))
  | true => during p (Transition.refine? e)
  | false => return none

/-- Takes `e` off the stack, with `rest` below it. -/
def step (limits : Limits) (policy : Policy Client E) (e : E) (rest : List E)
    (requested : Bool) (p : Progress Client E) : Attempt Client E (Refinement Client E) := do
  let (wanted, p) ← wantsSplit limits policy requested p e
  match ← split? p e wanted with
  | some t => return ⟨t.added ++ rest, false, p.split t⟩
  | none => return ⟨rest, false, p.emit e⟩

/-! ## The weight of a stack -/

/-- Number of nodes in a full tree of the given depth. -/
def nodeCount (branching : Nat) : (depth : Nat) → Nat
  | 0 => 1
  | depth + 1 => 1 + branching * nodeCount branching depth

/-- Number of nodes below an element, itself included. -/
def weight (e : E) : Nat :=
  match Element.level e with
  | .ok l => nodeCount (Element.shape E).numChildren ((Element.shape E).maxLevel - l)
  | .error _ => 1

def stackWeight : List E → Nat
  | [] => 0
  | e :: rest => weight e + stackWeight rest

theorem nodeCount_pos (branching depth : Nat) : 0 < nodeCount branching depth := by
  cases depth with
  | zero => exact Nat.one_pos
  | succ depth => exact Nat.lt_of_lt_of_le Nat.one_pos (Nat.le_add_right 1 _)

theorem weight_pos (e : E) : 0 < weight e := by
  unfold weight
  split
  · exact nodeCount_pos _ _
  · decide

@[simp] theorem stackWeight_nil : stackWeight ([] : List E) = 0 := rfl

@[simp] theorem stackWeight_cons (e : E) (rest : List E) :
    stackWeight (e :: rest) = weight e + stackWeight rest := rfl

@[simp] theorem stackWeight_append (xs ys : List E) :
    stackWeight (xs ++ ys) = stackWeight xs + stackWeight ys := by
  induction xs with
  | nil => simp
  | cons x xs ih => simp [ih, Nat.add_assoc]

private theorem stackWeight_eq_mul {xs : List E} {w : Nat} (h : ∀ x ∈ xs, weight x = w) :
    stackWeight xs = xs.length * w := by
  induction xs with
  | nil => simp
  | cons x xs ih =>
      rw [stackWeight_cons, h x (by simp), ih fun y hy => h y (by simp [hy])]
      simp [Nat.add_mul, Nat.add_comm]

theorem stackWeight_added_lt {e : E} {t : Transition E}
    (h : Transition.refine? e = .ok (some t)) : stackWeight t.added < weight e := by
  obtain ⟨l, hl, hlt, hcs⟩ := Transition.added_of_refine? h
  obtain ⟨d, hd⟩ : ∃ d, (Element.shape E).maxLevel - l = d + 1 :=
    ⟨(Element.shape E).maxLevel - l - 1, by omega⟩
  have each : ∀ c ∈ t.added, weight c = nodeCount (Element.shape E).numChildren d := by
    intro c hc
    obtain ⟨l', hl', hc'⟩ := Element.level_of_mem_children hcs hc
    cases hl.symm.trans hl'
    simp only [weight, hc']
    congr 1
    omega
  rw [stackWeight_eq_mul each, Element.length_children hcs]
  simp only [weight, hl, hd, nodeCount]
  omega

theorem split?_eq_some {p : Progress Client E} {e : E} {wanted : Bool} {t : Transition E}
    (h : split? p e wanted = .ok (some t)) : Transition.refine? e = .ok (some t) := by
  cases wanted with
  | false => cases h
  | true =>
      unfold split? during at h
      cases hr : Transition.refine? e with
      | error f =>
          rw [hr] at h
          cases h
      | ok r =>
          rw [hr] at h
          cases h
          rfl

theorem stackWeight_step_lt {limits : Limits} {policy : Policy Client E} {e : E}
    {rest : List E} {requested : Bool} {p : Progress Client E} {next : Refinement Client E}
    (h : step limits policy e rest requested p = .ok next) :
    stackWeight next.pending < stackWeight (e :: rest) := by
  obtain ⟨⟨wanted, p'⟩, _, h⟩ := bind_eq_ok_iff.mp h
  obtain ⟨t?, ht, h⟩ := bind_eq_ok_iff.mp h
  cases t? with
  | none =>
      cases h
      rw [stackWeight_cons]
      exact Nat.lt_add_of_pos_left (weight_pos e)
  | some t =>
      cases h
      rw [stackWeight_append, stackWeight_cons]
      exact Nat.add_lt_add_right (stackWeight_added_lt (split?_eq_some ht)) _

/-! ## The loop -/

def run (limits : Limits) (policy : Policy Client E) (pending : List E) (requested : Bool)
    (p : Progress Client E) : Attempt Client E (Progress Client E) :=
  match pending with
  | [] => return p
  | e :: rest =>
    match _step : step limits policy e rest requested p with
    | .error interrupted => .error interrupted
    | .ok next => run limits policy next.pending next.requested next.progress
termination_by stackWeight pending
decreasing_by exact stackWeight_step_lt _step

end Refinement

/-- Replaces a leaf by its children, and these by theirs as far as the policy asks
for it in a recursive pass. -/
def refine {Client E : Type} [Element E] (limits : Limits) (policy : Policy Client E)
    (e : E) (p : Progress Client E) : Attempt Client E (Progress Client E) :=
  Refinement.run limits policy [e] true p

end MeshCurve.Adapt
