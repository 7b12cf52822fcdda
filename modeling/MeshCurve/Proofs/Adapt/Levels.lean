import MeshCurve.Proofs.Adapt.Gathering
import MeshCurve.Proofs.Leaves.Uniform

/-!
# Passes over leaves of one level

A policy that answers the same everywhere takes leaves of one level to leaves of one level.
Refining brings all of them to the next level, or down to the finest one allowed if new
children are looked at again; merging takes them one level up, until the coarsest level that
the limits allow.  What several passes do then follows by counting.
-/

namespace MeshCurve.Adapt

open Element Leaves

variable {Client E : Type}

/-- Whatever is offered, the answer is `a`, if there is one. -/
def Answers (policy : Policy Client E) (a : Action) : Prop :=
  ∀ {c c' : Client} {offered : List E} {b : Action}, policy c offered = .ok (b, c') → b = a

theorem Answers.never {policy : Policy Client E} {a b : Action} (h : Answers policy a)
    (differ : b ≠ a) : Never policy b := fun _ _ _ answer => differ (h answer)

theorem Answers.of_ask {policy : Policy Client E} {a b : Action} (h : Answers policy a)
    {p p₁ : Progress Client E} {offered : List E} (asked : p.ask policy offered = .ok (b, p₁)) :
    b = a := h (Adapt.of_ask asked).1

variable [Element E]

/-! ## Refining -/

/-- The level to which a pass refines leaves of level `l`. -/
def Limits.refinedLevel (E : Type) [Element E] (limits : Limits) (l : Nat) : Nat :=
  if limits.recursive then max l (limits.effectiveMaxLevel E)
  else max l (min (l + 1) (limits.effectiveMaxLevel E))

namespace Limits

variable {limits : Limits} {l k : Nat}

theorem refinedLevel_of_fine (h : limits.effectiveMaxLevel E ≤ l) :
    limits.refinedLevel E l = l := by
  unfold refinedLevel
  split <;> omega

theorem lt_refinedLevel (h : l < limits.effectiveMaxLevel E) : l < limits.refinedLevel E l := by
  unfold refinedLevel
  split <;> omega

theorem lt_refinedLevel_of_recursive (again : limits.recursive = true)
    (h : k < limits.effectiveMaxLevel E) : k < limits.refinedLevel E l := by
  unfold refinedLevel
  rw [if_pos again]
  omega

/-- A child that may not be refined again has got as far as the pass brings it. -/
theorem refinedLevel_eq (finer : l < k) (within : k ≤ limits.refinedLevel E l)
    (done : ¬ (limits.recursive = true ∧ k < limits.effectiveMaxLevel E)) :
    limits.refinedLevel E l = k := by
  unfold refinedLevel at within ⊢
  by_cases again : limits.recursive = true
  · have fine := not_and.mp done again
    rw [if_pos again] at within ⊢
    omega
  · rw [if_neg again] at within ⊢
    omega

end Limits

/-- What remains is of level `l` and what has been placed of level `t`; what is pending is of
levels beyond `l` and up to `t`. -/
structure Between (l t : Nat) (s : Stage Client E) : Prop where
  remaining : ∀ e ∈ s.remaining, level e = .ok l
  pending : ∀ e ∈ s.pending, ∃ k, level e = .ok k ∧ l < k ∧ k ≤ t
  placed : ∀ e ∈ s.progress.leaves.toList, level e = .ok t

section

variable {limits : Limits} {policy : Policy Client E} {s t : Stage Client E} {l : Nat}
  {p : Progress Client E} {e : E}

theorem mayRefine_iff_level_lt (unlimited : limits.budget.maxRefinements = 0)
    (hl : level e = .ok l) : MayRefine limits p e ↔ l < limits.effectiveMaxLevel E := by
  rw [mayRefine_of_unlimited unlimited, Limits.allowsRefine, hl, ok_bind, pure_eq_ok,
    Except.ok.injEq, decide_eq_true_iff]

theorem level_of_children {cs : List E} (hl : level e = .ok l) (hcs : children e = .ok cs) :
    ∀ c ∈ cs, level c = .ok (l + 1) := by
  intro c hc
  obtain ⟨k, hk, hc⟩ := level_of_mem_children hcs hc
  cases hl.symm.trans hk
  exact hc

theorem Move.between (answers : Answers policy .refine)
    (unlimited : limits.budget.maxRefinements = 0) (h : Move limits policy s t)
    (hs : Between l (limits.refinedLevel E l) s) : Between l (limits.refinedLevel E l) t := by
  obtain ⟨remaining, pending, placed⟩ := hs
  cases h with
  | keep offer asked _ refused =>
      obtain ⟨hl, remaining⟩ := List.forall_mem_cons.mp remaining
      have fine := refused (answers.of_ask asked)
      rw [mayRefine_iff_level_lt unlimited hl, Nat.not_lt] at fine
      rw [← Limits.refinedLevel_of_fine fine] at hl
      refine ⟨remaining, pending, ?_⟩
      rw [Progress.leaves_keep, (of_ask asked).2.1]
      exact List.forall_mem_append.mpr ⟨placed, List.forall_mem_singleton.mpr hl⟩
  | split offer asked may hcs =>
      obtain ⟨hl, remaining⟩ := List.forall_mem_cons.mp remaining
      have coarse := (mayRefine_iff_level_lt unlimited hl).mp may
      refine ⟨remaining, ?_, ?_⟩
      · intro c hc
        exact ⟨l + 1, level_of_children hl hcs c hc, Nat.lt_succ_self l,
          Limits.lt_refinedLevel coarse⟩
      · rwa [Progress.leaves_split, (of_ask asked).2.1]
  | refuse _ _ asked | merge _ _ asked => exact absurd (answers.of_ask asked) (by decide)
  | place refused =>
      obtain ⟨⟨k, hk, finer, within⟩, pending⟩ := List.forall_mem_cons.mp pending
      rw [mayRefine_iff_level_lt unlimited hk] at refused
      -- whether children are looked at again or not, this one stays where the pass ends
      rw [← Limits.refinedLevel_eq finer within refused] at hk
      refine ⟨remaining, pending, ?_⟩
      rw [Progress.leaves_emit]
      exact List.forall_mem_append.mpr ⟨placed, List.forall_mem_singleton.mpr hk⟩
  | settle _ _ asked kept => exact absurd (answers.of_ask asked) kept
  | descend again may asked hcs =>
      obtain ⟨⟨k, hk, finer, within⟩, pending⟩ := List.forall_mem_cons.mp pending
      have coarse := (mayRefine_iff_level_lt unlimited hk).mp may
      refine ⟨remaining, List.forall_mem_append.mpr ⟨?_, pending⟩, ?_⟩
      · intro c hc
        exact ⟨k + 1, level_of_children hk hcs c hc, Nat.lt_succ_of_lt finer,
          Limits.lt_refinedLevel_of_recursive again coarse⟩
      · rwa [Progress.leaves_split, (of_ask asked).2.1]

/-! ## Resting -/

/-- Nothing is pending, and all leaves are of level `l`. -/
structure Resting (l : Nat) (s : Stage Client E) : Prop where
  nothing : s.pending = []
  remaining : ∀ e ∈ s.remaining, level e = .ok l
  placed : ∀ e ∈ s.progress.leaves.toList, level e = .ok l

/-- Where nothing is to be refined, and nothing is to be merged or may be, no leaf changes. -/
theorem Move.resting
    (stays : ∀ {p p₁ : Progress Client E} {e : E} {rest : List E} {a : Action},
      p.ask policy (e :: rest) = .ok (a, p₁) → a ≠ .refine)
    (coarse : Never policy .coarsen ∨ l ≤ limits.minLevel) (h : Move limits policy s t)
    (hs : Resting l s) : Resting l t := by
  obtain ⟨nothing, remaining, placed⟩ := hs
  cases h with
  | keep offer asked =>
      obtain ⟨hl, remaining⟩ := List.forall_mem_cons.mp remaining
      refine ⟨rfl, remaining, ?_⟩
      rw [Progress.leaves_keep, (of_ask asked).2.1]
      exact List.forall_mem_append.mpr ⟨placed, List.forall_mem_singleton.mpr hl⟩
  | split offer asked =>
      obtain ⟨tail, rfl⟩ := offer.exists_tail
      exact absurd rfl (stays asked)
  | refuse _ _ asked =>
      obtain ⟨family, remaining⟩ := List.forall_mem_append.mp remaining
      refine ⟨rfl, remaining, ?_⟩
      rw [Progress.leaves_keep, (of_ask asked).2.1]
      exact List.forall_mem_append.mpr ⟨placed, family⟩
  | merge _ _ asked may =>
      rcases coarse with never | coarse
      · exact absurd (of_ask asked).1 (never _ _ _)
      · obtain ⟨k, hk, finer⟩ := may.exists_level
        cases (remaining _ List.mem_cons_self).symm.trans hk
        omega
  | place | settle | descend => cases nothing

end

/-! ## Passes -/

/-- A change takes leaves at most one level up. -/
theorem level_le_of_changes {l : Nat} {changes : List (Exchange E)} (hc : ∀ x ∈ changes, Change x)
    (old : ∀ e ∈ outgoing changes, level e = .ok (l + 1)) {d : E} {k : Nat}
    (hd : d ∈ incoming changes) (hk : level d = .ok k) : l ≤ k := by
  obtain ⟨x, hx, hd⟩ := List.mem_flatMap.mp hd
  have old : ∀ e ∈ x.outgoing, level e = .ok (l + 1) := fun e he =>
    old e (List.mem_flatMap.mpr ⟨x, hx, he⟩)
  cases hc x hx with
  | carried e =>
      obtain rfl := List.mem_singleton.mp hd
      cases (old d List.mem_cons_self).symm.trans hk
      exact Nat.le_succ l
  | split hcs cuts =>
      have finer := cuts.level_lt hcs hd (old _ List.mem_cons_self) hk
      omega
  | merged hq hf =>
      obtain rfl := List.mem_singleton.mp hd
      obtain ⟨c, hc⟩ := List.exists_mem_of_ne_nil _ (children_ne_nil hf)
      cases (old c hc).symm.trans (level_of_children hk hf c hc)
      exact Nat.le_refl l

theorem completeTo_of_tiledAt [LawfulNumbering E] {leaves : Leaves E} {l : Nat}
    (h : TiledAt l leaves) : CompleteTo l leaves := by
  have inRoot := h.tiled.laid.inRoot
  obtain ⟨e, he⟩ := List.exists_mem_of_ne_nil _ h.tiled.ne_nil
  refine ⟨inRoot, (isComplete_of_inRoot inRoot).eq_true h.tiled, ?_⟩
  exact maxLevel?_eq inRoot (fun d hd => ⟨l, Nat.le_refl l, h.level d hd⟩) he (h.level e he)

section

variable [DecidableEq E] [LawfulNumbering E] {limits : Limits} {policy : Policy Client E}
  {client : Client} {leaves : Leaves E} {out : Outcome Client E} {l : Nat}

theorem tiled_of_adapt (tiled : Tiled 0 (branching E ^ finest E) leaves.toList)
    (ran : adapt limits policy client leaves = .ok out) :
    Tiled 0 (branching E ^ finest E) out.leaves.toList := by
  have ordered := ordered_iff_laid.mpr tiled.laid
  have same := sameRegion_of_adapt ordered ran
  have full := (isComplete_of_inRoot ordered.inRoot).eq_true tiled
  exact (isComplete_of_inRoot same.ordered.inRoot).eq_true_iff.mp (same.complete full)

theorem tiledAt_of_refining (h : TiledAt l leaves) (answers : Answers policy .refine)
    (unlimited : limits.budget.maxRefinements = 0)
    (ran : adapt limits policy client leaves = .ok out) :
    TiledAt (limits.refinedLevel E l) out.leaves := by
  refine ⟨tiled_of_adapt h.tiled ran, ?_⟩
  obtain ⟨p, moves, new, _⟩ := exists_moves h.valid ran
  have start : Between l (limits.refinedLevel E l) ⟨[], leaves.toList, .start client⟩ :=
    ⟨h.level, by simp, by simp⟩
  rw [new]
  exact (invariant_of_moves (Move.between answers unlimited) moves start).placed

theorem tiledAt_of_resting (h : TiledAt l leaves)
    (stays : ∀ {p p₁ : Progress Client E} {e : E} {rest : List E} {a : Action},
      p.ask policy (e :: rest) = .ok (a, p₁) → a ≠ .refine)
    (coarse : Never policy .coarsen ∨ l ≤ limits.minLevel)
    (ran : adapt limits policy client leaves = .ok out) : TiledAt l out.leaves := by
  refine ⟨tiled_of_adapt h.tiled ran, ?_⟩
  obtain ⟨p, moves, new, _⟩ := exists_moves h.valid ran
  have start : Resting l ⟨[], leaves.toList, .start client⟩ := ⟨rfl, h.level, by simp⟩
  rw [new]
  exact (invariant_of_moves (Move.resting stays coarse) moves start).placed

/-- The level to which a pass merges leaves of level `l`. -/
def Limits.mergedLevel (limits : Limits) (l : Nat) : Nat := max (l - 1) (min l limits.minLevel)

theorem tiledAt_of_merging (h : TiledAt l leaves) (gathers : Gathers policy)
    (unlimited : limits.budget.maxCoarsenings = 0)
    (ran : adapt limits policy client leaves = .ok out) :
    TiledAt (limits.mergedLevel l) out.leaves := by
  by_cases coarse : l ≤ limits.minLevel
  · have here : limits.mergedLevel l = l := by
      unfold Limits.mergedLevel
      omega
    rw [here]
    exact tiledAt_of_resting h gathers.ne_refine (.inr coarse) ran
  · obtain ⟨m, rfl⟩ : ∃ m, l = m + 1 := ⟨l - 1, by omega⟩
    have here : limits.mergedLevel (m + 1) = m := by
      unfold Limits.mergedLevel
      omega
    rw [here]
    refine ⟨tiled_of_adapt h.tiled ran, ?_⟩
    obtain ⟨out', ran', complete, _⟩ := exists_gathering_pass gathers client unlimited
      (Nat.le_of_lt_succ (Nat.not_le.mp coarse)) (completeTo_of_tiledAt h)
    cases ran.symm.trans ran'
    obtain ⟨changes, old, new⟩ := changes_of_adapt ran h.valid h.tiled.laid.pairwise_apart
    intro d hd
    -- nothing finer than `m` is left, and no change leads further up than from `m + 1`
    obtain ⟨k, hle, hk⟩ := complete.level_le d hd
    have least := level_le_of_changes changes (old ▸ h.level) (new ▸ hd) hk
    rw [hk, Nat.le_antisymm hle least]

end

/-! ## Several passes -/

/-- What a pass does to the level, several passes do one after the other. -/
theorem tiledAt_of_repeatPasses [DecidableEq E] {limits : Limits} {policy : Policy Client E}
    {client : Client} {f : Nat → Nat}
    (step : ∀ {l : Nat} {now : Leaves E} {out : Outcome Client E}, TiledAt l now →
      adapt limits policy client now = .ok out → TiledAt (f l) out.leaves)
    {passes l n : Nat} {leaves last : Leaves E} (h : TiledAt l leaves)
    (ran : repeatPasses limits policy client passes leaves = .ok (last, n)) :
    TiledAt (f^[passes] l) last := by
  induction passes generalizing l leaves n with
  | zero =>
      cases ran
      exact h
  | succ passes ih =>
      obtain ⟨out, once, ran⟩ := bind_eq_ok_iff.mp ran
      obtain ⟨⟨last', n'⟩, later, ran⟩ := bind_eq_ok_iff.mp ran
      cases ran
      exact ih (step h once) later

namespace Limits

variable {limits : Limits} {i p : Nat}

theorem iterate_refinedLevel (once : limits.recursive = false) :
    (limits.refinedLevel E)^[p] i = max i (min (i + p) (limits.effectiveMaxLevel E)) := by
  induction p generalizing i with
  | zero =>
      rw [Function.iterate_zero_apply]
      omega
  | succ p ih =>
      rw [Function.iterate_succ_apply, ih, refinedLevel, once, if_neg Bool.false_ne_true]
      omega

theorem iterate_refinedLevel_of_recursive (again : limits.recursive = true) (some' : 1 ≤ p) :
    (limits.refinedLevel E)^[p] i = max i (limits.effectiveMaxLevel E) := by
  induction p, some' using Nat.le_induction generalizing i with
  | base => rw [Function.iterate_one, refinedLevel, if_pos again]
  | succ p _ ih =>
      rw [Function.iterate_succ_apply, ih, refinedLevel, if_pos again]
      omega

theorem iterate_mergedLevel : limits.mergedLevel^[p] i = max (i - p) (min i limits.minLevel) := by
  induction p generalizing i with
  | zero =>
      rw [Function.iterate_zero_apply]
      omega
  | succ p ih =>
      rw [Function.iterate_succ_apply, ih, mergedLevel]
      omega

end Limits

end MeshCurve.Adapt
