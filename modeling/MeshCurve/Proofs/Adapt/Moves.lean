import MeshCurve.Proofs.Adapt.Changes
import Mathlib.Logic.Relation
import Mathlib.Tactic.Linarith

/-!
# The moves of a pass

A pass that finishes is a sequence of moves.  A move takes the next leaf of the input,
or a family of them, or the next of the children that are waiting for their turn.  Each
case says what was offered, what was answered, and what the limits and the budget had to
say about it, so that what a pass preserves is shown move by move.
-/

namespace MeshCurve.Adapt

open Element

variable {Client E : Type}

/-- An answer changes nothing but the client and the list of the offers. -/
theorem of_ask {policy : Policy Client E} {p p₁ : Progress Client E} {offered : List E}
    {a : Action} (h : p.ask policy offered = .ok (a, p₁)) :
    policy p.client offered = .ok (a, p₁.client) ∧ p₁.leaves = p.leaves ∧
      p₁.groups = p.groups ∧ p₁.stats = p.stats := by
  obtain ⟨⟨b, c⟩, answer, h⟩ := bind_eq_ok_iff.mp h
  cases h
  exact ⟨during_eq_ok_iff.mp answer, rfl, rfl, rfl⟩

theorem offers_of_ask {policy : Policy Client E} {p p₁ : Progress Client E} {offered : List E}
    {a : Action} (h : p.ask policy offered = .ok (a, p₁)) :
    p₁.offers = p.offers.push offered := by
  obtain ⟨_, _, h⟩ := bind_eq_ok_iff.mp h
  cases h
  rfl

/-- A pass between two moves. -/
structure Stage (Client E : Type) where
  /-- children of refined leaves that have not been placed yet -/
  pending : List E
  /-- leaves of the input that have not been reached yet -/
  remaining : List E
  progress : Progress Client E

variable [Element E]

def MayRefine (limits : Limits) (p : Progress Client E) (e : E) : Prop :=
  limits.allowsRefine e = .ok true ∧ limits.budget.canRefine p.stats.refinements = true

def MayCoarsen (limits : Limits) (p : Progress Client E) (first : E) : Prop :=
  limits.allowsCoarsen first = .ok true ∧ limits.budget.canCoarsen p.stats.coarsenings = true

/-- What is offered of the remaining leaves: a family at their head, or the first one. -/
def Offered (leaves offered : List E) : Prop :=
  (isFamily (leaves.take (shape E).numChildren) = .ok true ∧
      offered = leaves.take (shape E).numChildren) ∨
    isFamily (leaves.take (shape E).numChildren) = .ok false ∧ offered = leaves.take 1

inductive Move (limits : Limits) (policy : Policy Client E) :
    Stage Client E → Stage Client E → Prop
  /-- the first leaf stays, as asked or because it may not be refined -/
  | keep {e : E} {rest offered : List E} {a : Action} {p p₁ : Progress Client E} :
      Offered (e :: rest) offered → p.ask policy offered = .ok (a, p₁) → a ≠ .coarsen →
      (a = .refine → ¬ MayRefine limits p₁ e) →
      Move limits policy ⟨[], e :: rest, p⟩ ⟨[], rest, p₁.keep [e]⟩
  /-- the first leaf makes way for its children -/
  | split {e : E} {rest offered cs : List E} {p p₁ : Progress Client E} :
      Offered (e :: rest) offered → p.ask policy offered = .ok (.refine, p₁) →
      MayRefine limits p₁ e → children e = .ok cs →
      Move limits policy ⟨[], e :: rest, p⟩ ⟨cs, rest, p₁.split ⟨.refine, e, cs, [e]⟩⟩
  /-- a family stays although it was to be coarsened -/
  | refuse {q first : E} {siblings rest : List E} {p p₁ : Progress Client E} :
      Valid q → children q = .ok (first :: siblings) →
      p.ask policy (first :: siblings) = .ok (.coarsen, p₁) → ¬ MayCoarsen limits p₁ first →
      Move limits policy ⟨[], first :: siblings ++ rest, p⟩
        ⟨[], rest, p₁.keep (first :: siblings)⟩
  /-- a family makes way for its parent -/
  | merge {q first : E} {siblings rest : List E} {p p₁ : Progress Client E} :
      Valid q → children q = .ok (first :: siblings) →
      p.ask policy (first :: siblings) = .ok (.coarsen, p₁) → MayCoarsen limits p₁ first →
      Move limits policy ⟨[], first :: siblings ++ rest, p⟩
        ⟨[], rest, p₁.merge ⟨.coarsen, q, [q], first :: siblings⟩⟩
  /-- a child is placed without being offered -/
  | place {e : E} {pending rest : List E} {p : Progress Client E} :
      ¬ (limits.recursive = true ∧ MayRefine limits p e) →
      Move limits policy ⟨e :: pending, rest, p⟩ ⟨pending, rest, p.emit e⟩
  /-- a child is placed since it is not to be refined -/
  | settle {e : E} {pending rest : List E} {a : Action} {p p₁ : Progress Client E} :
      limits.recursive = true → MayRefine limits p e → p.ask policy [e] = .ok (a, p₁) →
      a ≠ .refine → Move limits policy ⟨e :: pending, rest, p⟩ ⟨pending, rest, p₁.emit e⟩
  /-- a child makes way for its own children -/
  | descend {e : E} {pending rest cs : List E} {p p₁ : Progress Client E} :
      limits.recursive = true → MayRefine limits p e →
      p.ask policy [e] = .ok (.refine, p₁) → children e = .ok cs →
      Move limits policy ⟨e :: pending, rest, p⟩
        ⟨cs ++ pending, rest, p₁.split ⟨.refine, e, cs, [e]⟩⟩

/-- Any number of moves. -/
abbrev Moves (limits : Limits) (policy : Policy Client E) :
    Stage Client E → Stage Client E → Prop := Relation.ReflTransGen (Move limits policy)

section

variable {limits : Limits} {policy : Policy Client E} {p p' : Progress Client E} {e : E}

/-! ## Refining -/

theorem mayRefine_iff {allowed : Bool} (h : limits.allowsRefine e = .ok allowed) :
    MayRefine limits p e ↔
      (allowed && limits.budget.canRefine p.stats.refinements) = true := by
  rw [MayRefine, h, Except.ok.injEq, Bool.and_eq_true]

theorem mayCoarsen_iff {allowed : Bool} (h : limits.allowsCoarsen e = .ok allowed) :
    MayCoarsen limits p e ↔
      (allowed && limits.budget.canCoarsen p.stats.coarsenings) = true := by
  rw [MayCoarsen, h, Except.ok.injEq, Bool.and_eq_true]

theorem exists_level_of_allowsRefine (h : limits.allowsRefine e = .ok true) :
    ∃ l, level e = .ok l ∧ l < limits.effectiveMaxLevel E := by
  obtain ⟨l, hl, allowed⟩ := bind_eq_ok_iff.mp h
  exact ⟨l, hl, of_decide_eq_true (Except.ok.inj allowed)⟩

theorem MayRefine.exists_level (may : MayRefine limits p e) :
    ∃ l, level e = .ok l ∧ l < limits.effectiveMaxLevel E := exists_level_of_allowsRefine may.1

theorem MayCoarsen.exists_level (may : MayCoarsen limits p e) :
    ∃ l, level e = .ok l ∧ limits.minLevel < l := by
  obtain ⟨l, hl, allowed⟩ := bind_eq_ok_iff.mp may.1
  exact ⟨l, hl, of_decide_eq_true (Except.ok.inj allowed)⟩

theorem mayCoarsen_of_unlimited {l : Nat} (unlimited : limits.budget.maxCoarsenings = 0)
    (hl : level e = .ok l) (finer : limits.minLevel < l) : MayCoarsen limits p e := by
  refine ⟨?_, ?_⟩
  · rw [Limits.allowsCoarsen, hl, ok_bind, decide_eq_true finer, pure_eq_ok]
  · rw [Budget.canCoarsen, unlimited]
    simp

theorem refine?_of_allowsRefine (allowed : limits.allowsRefine e = .ok true)
    {t? : Option (Transition E)} (h : Transition.refine? e = .ok t?) :
    ∃ cs, children e = .ok cs ∧ t? = some ⟨.refine, e, cs, [e]⟩ := by
  obtain ⟨l, hl, h⟩ := bind_eq_ok_iff.mp h
  obtain ⟨l', hl', coarse⟩ := exists_level_of_allowsRefine allowed
  cases hl.symm.trans hl'
  have coarser : l < (shape E).maxLevel := coarse.trans_le (Nat.min_le_right _ _)
  rw [if_neg (Nat.not_le.mpr coarser)] at h
  obtain ⟨cs, hcs, h⟩ := bind_eq_ok_iff.mp h
  cases h
  exact ⟨cs, hcs, rfl⟩

theorem move_of_step {pending : List E} (rest : List E) {next : Refinement Client E}
    (h : Refinement.step limits policy e pending false p = .ok next) :
    next.requested = false ∧
      Move limits policy ⟨e :: pending, rest, p⟩ ⟨next.pending, rest, next.progress⟩ := by
  obtain ⟨⟨wanted, p₁⟩, hw, h⟩ := bind_eq_ok_iff.mp h
  rw [Refinement.wantsSplit, if_neg Bool.false_ne_true] at hw
  by_cases recursive : limits.recursive = true
  · rw [recursive, if_neg (by decide)] at hw
    obtain ⟨allowed, ha, hw⟩ := bind_eq_ok_iff.mp hw
    have may := mayRefine_iff (p := p) (during_eq_ok_iff.mp ha)
    split at hw
    · next permitted =>
        have may := may.mpr permitted
        obtain ⟨⟨a, p₂⟩, asked, hw⟩ := bind_eq_ok_iff.mp hw
        cases hw
        by_cases refined : a = .refine
        · subst refined
          obtain ⟨t?, ht, h⟩ := bind_eq_ok_iff.mp h
          obtain ⟨cs, hcs, rfl⟩ := refine?_of_allowsRefine may.1 (during_eq_ok_iff.mp ht)
          cases h
          exact ⟨rfl, .descend recursive may asked hcs⟩
        · rw [decide_eq_false refined] at h
          cases h
          exact ⟨rfl, .settle recursive may asked refined⟩
    · next forbidden =>
        cases hw
        cases h
        exact ⟨rfl, .place fun both => forbidden (may.mp both.2)⟩
  · rw [if_pos (by simpa using recursive)] at hw
    cases hw
    cases h
    exact ⟨rfl, .place fun both => recursive both.1⟩

theorem moves_of_run {pending : List E} (rest : List E)
    (h : Refinement.run limits policy pending false p = .ok p') :
    Moves limits policy ⟨pending, rest, p⟩ ⟨[], rest, p'⟩ := by
  -- the children that replace an element weigh less than it, not fewer
  induction hw : Refinement.stackWeight pending using Nat.strong_induction_on
    generalizing pending p with
  | _ w ih =>
    cases pending with
    | nil =>
        rw [Refinement.run] at h
        cases h
        exact .refl
    | cons e pending =>
        rw [Refinement.run] at h
        split at h
        · cases h
        · next next step =>
            obtain ⟨again, move⟩ := move_of_step rest step
            rw [again] at h
            exact .head move (ih _ (hw ▸ Refinement.stackWeight_step_lt step) h rfl)

theorem moves_of_refine (rest : List E) {q : Progress Client E} (may : MayRefine limits q e)
    (h : refine limits policy e p = .ok p') :
    ∃ cs, children e = .ok cs ∧
      Moves limits policy ⟨cs, rest, p.split ⟨.refine, e, cs, [e]⟩⟩ ⟨[], rest, p'⟩ := by
  rw [refine, Refinement.run] at h
  split at h
  · cases h
  · next next step =>
      obtain ⟨_, wanted, step⟩ := bind_eq_ok_iff.mp step
      cases wanted
      obtain ⟨t?, ht, step⟩ := bind_eq_ok_iff.mp step
      obtain ⟨cs, hcs, rfl⟩ := refine?_of_allowsRefine may.1 (during_eq_ok_iff.mp ht)
      cases step
      rw [List.append_nil] at h
      exact ⟨cs, hcs, moves_of_run rest h⟩

/-! ## Sweeping -/

theorem moves_of_decideFirst {rest offered : List E} {a : Action} {q : Progress Client E}
    (offer : Offered (e :: rest) offered) (asked : q.ask policy offered = .ok (a, p))
    (h : decideFirst limits policy a e p = .ok p') :
    Moves limits policy ⟨[], e :: rest, q⟩ ⟨[], rest, p'⟩ := by
  cases a with
  | coarsen => cases h
  | keep =>
      cases h
      exact .single (.keep offer asked Action.noConfusion Action.noConfusion)
  | refine =>
      obtain ⟨allowed, ha, h⟩ := bind_eq_ok_iff.mp h
      have may := mayRefine_iff (p := p) (during_eq_ok_iff.mp ha)
      split at h
      · next permitted =>
          obtain ⟨cs, hcs, moves⟩ := moves_of_refine rest (may.mpr permitted) h
          exact .head (.split offer asked (may.mpr permitted) hcs) moves
      · next forbidden =>
          cases h
          exact .single (.keep offer asked (by decide) fun _ => forbidden ∘ may.mp)

theorem move_of_coarsen [LawfulNavigation E] (rest : List E) {q : E} {siblings : List E}
    {p₁ : Progress Client E} (hq : Valid q) (hf : children q = .ok (e :: siblings))
    (asked : p₁.ask policy (e :: siblings) = .ok (.coarsen, p))
    (h : coarsen limits (e :: siblings) e p = .ok p') :
    Move limits policy ⟨[], e :: siblings ++ rest, p₁⟩ ⟨[], rest, p'⟩ := by
  obtain ⟨allowed, ha, h⟩ := bind_eq_ok_iff.mp h
  have may := mayCoarsen_iff (p := p) (during_eq_ok_iff.mp ha)
  split at h
  · next permitted =>
      rw [during_of_ok (coarsen?_eq hq hf)] at h
      cases h
      exact .merge hq hf asked (may.mpr permitted)
  · next forbidden =>
      cases h
      exact .refuse hq hf asked (forbidden ∘ may.mp)

/-- The first round of a sweep, and what it leaves to the next rounds. -/
theorem moves_of_round [LawfulNavigation E] {leaves : List E}
    (valid : ∀ d ∈ e :: leaves, Valid d) (h : sweep limits policy (e :: leaves) p = .ok p') :
    ∃ rest p₁, rest.length < (e :: leaves).length ∧ (∀ d ∈ rest, Valid d) ∧
      Moves limits policy ⟨[], e :: leaves, p⟩ ⟨[], rest, p₁⟩ ∧
      sweep limits policy rest p₁ = .ok p' := by
  have later : ∀ d ∈ leaves, Valid d := fun d hd => valid d (List.mem_cons_of_mem e hd)
  rw [sweep] at h
  rcases isFamily_take valid with single | ⟨family, q, hq, hf⟩
  · rw [during_of_ok single, ok_bind] at h
    obtain ⟨⟨a, p₂⟩, asked, h⟩ := bind_eq_ok_iff.mp h
    simp only [Bool.false_eq_true, false_and, if_false] at asked h
    obtain ⟨p₁, decided, h⟩ := bind_eq_ok_iff.mp h
    exact ⟨leaves, p₁, Nat.lt_succ_self _, later,
      moves_of_decideFirst (.inr ⟨single, rfl⟩) asked decided, h⟩
  · rw [during_of_ok family, ok_bind] at h
    obtain ⟨⟨a, p₂⟩, asked, h⟩ := bind_eq_ok_iff.mp h
    simp only [if_true, true_and] at asked h
    split at h
    · next coarsened =>
        subst coarsened
        obtain ⟨p₁, merged, h⟩ := bind_eq_ok_iff.mp h
        obtain ⟨siblings, head, whole⟩ := exists_siblings hf
        refine ⟨_, p₁, ?_, fun d hd => later d (List.mem_of_mem_drop hd), ?_, h⟩
        · rw [List.length_drop, List.length_cons]
          omega
        · rw [head] at hf asked merged
          have move := move_of_coarsen
            (leaves.drop (((e :: leaves).take (shape E).numChildren).length - 1)) hq hf asked merged
          rw [List.cons_append, whole] at move
          exact .single move
    · obtain ⟨p₁, decided, h⟩ := bind_eq_ok_iff.mp h
      exact ⟨leaves, p₁, Nat.lt_succ_self _, later,
        moves_of_decideFirst (.inl ⟨family, rfl⟩) asked decided, h⟩

/-- A sweep that finishes moves through all the leaves. -/
theorem moves_of_sweep [LawfulNavigation E] {leaves : List E} (valid : ∀ d ∈ leaves, Valid d)
    (h : sweep limits policy leaves p = .ok p') :
    Moves limits policy ⟨[], leaves, p⟩ ⟨[], [], p'⟩ := by
  -- a round may take a whole family, so the tail of the list is too long a step
  induction hn : leaves.length using Nat.strong_induction_on generalizing leaves p with
  | _ n ih =>
    cases leaves with
    | nil =>
        rw [sweep] at h
        cases h
        exact .refl
    | cons e rest =>
        obtain ⟨later, p₁, shorter, valid', moves, h⟩ := moves_of_round valid h
        exact moves.trans (ih _ (hn ▸ shorter) valid' h rfl)

theorem moves_of_adapt [DecidableEq E] [LawfulNavigation E] {client : Client} {leaves : Leaves E}
    (valid : ∀ d ∈ leaves.toList, Valid d) {out : Outcome Client E}
    (h : adapt limits policy client leaves = .ok out) :
    ∃ p exchanges, Moves limits policy ⟨[], leaves.toList, .start client⟩ ⟨[], [], p⟩ ∧
      out = ⟨p.client, p.offers.toList, ⟨p.leaves.toList⟩, p.groups.toList, p.stats,
        exchanges⟩ := by
  obtain ⟨p, swept, h⟩ := bind_eq_ok_iff.mp h
  obtain ⟨exchanges, _, h⟩ := bind_eq_ok_iff.mp h
  exact ⟨p, exchanges, moves_of_sweep valid swept, (Except.ok.inj h).symm⟩

theorem exists_moves [DecidableEq E] [LawfulNavigation E] {client : Client} {leaves : Leaves E}
    (valid : ∀ d ∈ leaves.toList, Valid d) {out : Outcome Client E}
    (h : adapt limits policy client leaves = .ok out) :
    ∃ p, Moves limits policy ⟨[], leaves.toList, .start client⟩ ⟨[], [], p⟩ ∧
      out.leaves.toList = p.leaves.toList ∧ out.stats = p.stats ∧ out.groups = p.groups.toList := by
  obtain ⟨p, _, moves, rfl⟩ := moves_of_adapt valid h
  exact ⟨p, moves, rfl, rfl, rfl⟩

end

section

variable {limits : Limits} {policy : Policy Client E} {s t : Stage Client E}

/-- What every move keeps is kept by any number of them. -/
theorem invariant_of_moves {P : Stage Client E → Prop}
    (kept : ∀ {s t}, Move limits policy s t → P s → P t) (h : Moves limits policy s t)
    (hs : P s) : P t := by
  induction h with
  | refl => exact hs
  | tail _ move ih => exact kept move ih

/-- What no move changes is the same after any number of them. -/
theorem eq_of_moves {α : Type} {f : Stage Client E → α}
    (same : ∀ {s t}, Move limits policy s t → f t = f s) (h : Moves limits policy s t) :
    f t = f s :=
  invariant_of_moves (P := fun t => f t = f s) (fun move ih => (same move).trans ih) h rfl

/-! ## Accounting -/

/-- The leaves there are and those still to come, less what refining added and more what
coarsening took away. -/
def Stage.balance (s : Stage Client E) : Int :=
  s.progress.leaves.toList.length + s.pending.length + s.remaining.length +
    (branching E - 1) * (s.progress.stats.coarsenings - s.progress.stats.refinements)

theorem Move.balance_eq (h : Move limits policy s t) : t.balance = s.balance := by
  unfold Stage.balance
  cases h with
  | keep _ asked | refuse _ _ asked | settle _ _ asked =>
      obtain ⟨_, leaves, _, stats⟩ := of_ask asked
      simp only [Progress.leaves_keep, Progress.stats_keep, Progress.leaves_emit,
        Progress.stats_emit, leaves, stats, List.length_append, List.length_cons, List.length_nil]
      push_cast
      ring
  | place =>
      simp only [Progress.leaves_emit, Progress.stats_emit, List.length_append, List.length_cons,
        List.length_nil]
      push_cast
      ring
  | split _ asked _ hcs | descend _ _ asked hcs =>
      obtain ⟨_, leaves, _, stats⟩ := of_ask asked
      simp only [Progress.leaves_split, Progress.stats_split, leaves, stats, branching,
        length_children hcs, List.length_append, List.length_cons, List.length_nil]
      push_cast
      ring
  | merge _ hf asked =>
      obtain ⟨_, leaves, _, stats⟩ := of_ask asked
      simp only [Progress.leaves_merge, Progress.stats_merge, leaves, stats, branching,
        length_children hf, List.length_append, List.length_cons, List.length_nil]
      push_cast
      ring

/-- What a policy never answers is never done. -/
def Never (policy : Policy Client E) (a : Action) : Prop :=
  ∀ c offered c', policy c offered ≠ .ok (a, c')

theorem Move.refinements_eq (never : Never policy .refine) (h : Move limits policy s t) :
    t.progress.stats.refinements = s.progress.stats.refinements := by
  cases h with
  | keep _ asked | refuse _ _ asked | merge _ _ asked | settle _ _ asked =>
      simp [(of_ask asked).2.2.2]
  | place => rfl
  | split _ asked | descend _ _ asked => exact absurd (of_ask asked).1 (never _ _ _)

theorem Move.coarsenings_eq (never : Never policy .coarsen) (h : Move limits policy s t) :
    t.progress.stats.coarsenings = s.progress.stats.coarsenings := by
  cases h with
  | keep _ asked | split _ asked | settle _ _ asked | descend _ _ asked =>
      simp [(of_ask asked).2.2.2]
  | place => rfl
  | refuse _ _ asked | merge _ _ asked => exact absurd (of_ask asked).1 (never _ _ _)

/-! ## Levels -/

def Stage.elements (s : Stage Client E) : List E :=
  s.progress.leaves.toList ++ s.pending ++ s.remaining

/-- A property that refining within the limits hands on, and coarsening as well. -/
structure Persistent (limits : Limits) (Q : E → Prop) : Prop where
  child {e c : E} {cs : List E} : limits.allowsRefine e = .ok true → children e = .ok cs →
    c ∈ cs → Q e → Q c
  parent {q c : E} {cs : List E} : children q = .ok cs → c ∈ cs → Q c → Q q

theorem Move.forall_elements {Q : E → Prop} (hQ : Persistent limits Q)
    (h : Move limits policy s t) (hs : ∀ e ∈ s.elements, Q e) : ∀ e ∈ t.elements, Q e := by
  unfold Stage.elements at hs ⊢
  simp only [List.forall_mem_append] at hs ⊢
  obtain ⟨⟨old, waiting⟩, later⟩ := hs
  cases h with
  | keep _ asked =>
      obtain ⟨he, later⟩ := List.forall_mem_cons.mp later
      rw [Progress.leaves_keep, (of_ask asked).2.1]
      exact ⟨⟨List.forall_mem_append.mpr ⟨old, List.forall_mem_singleton.mpr he⟩, waiting⟩, later⟩
  | split _ asked may hcs =>
      obtain ⟨he, later⟩ := List.forall_mem_cons.mp later
      rw [Progress.leaves_split, (of_ask asked).2.1]
      exact ⟨⟨old, fun c hc => hQ.child may.1 hcs hc he⟩, later⟩
  | refuse _ _ asked =>
      obtain ⟨family, later⟩ := List.forall_mem_append.mp later
      rw [Progress.leaves_keep, (of_ask asked).2.1]
      exact ⟨⟨List.forall_mem_append.mpr ⟨old, family⟩, waiting⟩, later⟩
  | merge _ hf asked =>
      obtain ⟨family, later⟩ := List.forall_mem_append.mp later
      have hq := hQ.parent hf List.mem_cons_self (family _ List.mem_cons_self)
      rw [Progress.leaves_merge, (of_ask asked).2.1]
      exact ⟨⟨List.forall_mem_append.mpr ⟨old, List.forall_mem_singleton.mpr hq⟩, waiting⟩, later⟩
  | place =>
      obtain ⟨he, waiting⟩ := List.forall_mem_cons.mp waiting
      rw [Progress.leaves_emit]
      exact ⟨⟨List.forall_mem_append.mpr ⟨old, List.forall_mem_singleton.mpr he⟩, waiting⟩, later⟩
  | settle _ _ asked =>
      obtain ⟨he, waiting⟩ := List.forall_mem_cons.mp waiting
      rw [Progress.leaves_emit, (of_ask asked).2.1]
      exact ⟨⟨List.forall_mem_append.mpr ⟨old, List.forall_mem_singleton.mpr he⟩, waiting⟩, later⟩
  | descend _ may asked hcs =>
      obtain ⟨he, waiting⟩ := List.forall_mem_cons.mp waiting
      rw [Progress.leaves_split, (of_ask asked).2.1]
      exact ⟨⟨old, List.forall_mem_append.mpr
        ⟨fun c hc => hQ.child may.1 hcs hc he, waiting⟩⟩, later⟩

theorem forall_elements_of_moves {Q : E → Prop} (hQ : Persistent limits Q)
    (h : Moves limits policy s t) (hs : ∀ e ∈ s.elements, Q e) : ∀ e ∈ t.elements, Q e :=
  invariant_of_moves (P := fun s => ∀ e ∈ s.elements, Q e) (Move.forall_elements hQ) h hs

end

/-! ## Passes -/

section

variable [DecidableEq E] [LawfulNavigation E] {limits : Limits} {policy : Policy Client E}
  {client : Client} {leaves : Leaves E} {out : Outcome Client E}

/-- Every refinement adds a family less one leaf, and every coarsening takes one away. -/
theorem size_of_adapt (valid : ∀ e ∈ leaves.toList, Valid e)
    (ran : adapt limits policy client leaves = .ok out) :
    out.leaves.size + (branching E - 1) * out.stats.coarsenings =
      leaves.size + (branching E - 1) * out.stats.refinements := by
  obtain ⟨p, moves, new, stats, _⟩ := exists_moves valid ran
  have balance := eq_of_moves Move.balance_eq moves
  obtain ⟨k, hk⟩ : ∃ k, branching E = k + 1 :=
    Nat.exists_eq_succ_of_ne_zero (branching_pos E).ne'
  simp only [Stage.balance, Progress.start, Stats.zero, List.length_nil,
    hk] at balance
  rw [Leaves.size, Leaves.size, new, stats, hk, Nat.add_sub_cancel]
  apply Int.natCast_inj.mp
  push_cast at balance ⊢
  linarith

/-- A level that neither the leaves nor the limits exceed is not exceeded afterwards. -/
theorem level_le_of_adapt (valid : ∀ e ∈ leaves.toList, Valid e)
    (ran : adapt limits policy client leaves = .ok out) {top : Nat}
    (fine : limits.effectiveMaxLevel E ≤ top)
    (coarser : ∀ e ∈ leaves.toList, ∃ l ≤ top, level e = .ok l) :
    ∀ e ∈ out.leaves.toList, ∃ l ≤ top, level e = .ok l := by
  have persistent : Persistent limits fun e : E => ∃ l ≤ top, level e = .ok l := by
    constructor
    · rintro e c cs allowed hcs hc ⟨l, _, hl⟩
      obtain ⟨m, hm, below⟩ := bind_eq_ok_iff.mp allowed
      obtain ⟨k, hk, hc⟩ := level_of_mem_children hcs hc
      cases hm.symm.trans hk
      have room : m < limits.effectiveMaxLevel E := of_decide_eq_true (Except.ok.inj below)
      exact ⟨m + 1, by omega, hc⟩
    · rintro q c cs hcs hc ⟨l, hle, hl⟩
      obtain ⟨k, hk, hc⟩ := level_of_mem_children hcs hc
      cases hl.symm.trans hc
      exact ⟨k, by omega, hk⟩
  obtain ⟨p, moves, new, _⟩ := exists_moves valid ran
  have all := forall_elements_of_moves persistent moves (by simpa [Stage.elements] using coarser)
  rw [new]
  exact fun e he => all e (by simp [Stage.elements, he])

theorem refinements_of_adapt (valid : ∀ e ∈ leaves.toList, Valid e)
    (ran : adapt limits policy client leaves = .ok out) (never : Never policy .refine) :
    out.stats.refinements = 0 := by
  obtain ⟨p, moves, _, stats, _⟩ := exists_moves valid ran
  rw [stats]
  exact eq_of_moves (f := (·.progress.stats.refinements)) (Move.refinements_eq never) moves

theorem coarsenings_of_adapt (valid : ∀ e ∈ leaves.toList, Valid e)
    (ran : adapt limits policy client leaves = .ok out) (never : Never policy .coarsen) :
    out.stats.coarsenings = 0 := by
  obtain ⟨p, moves, _, stats, _⟩ := exists_moves valid ran
  rw [stats]
  exact eq_of_moves (f := (·.progress.stats.coarsenings)) (Move.coarsenings_eq never) moves

end

end MeshCurve.Adapt
