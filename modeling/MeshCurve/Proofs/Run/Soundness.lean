import MeshCurve.Proofs.Adapt.Levels
import MeshCurve.Proofs.Grid.Boundary
import MeshCurve.Proofs.Leaves.Check
import MeshCurve.Proofs.Metrics
import MeshCurve.Proofs.Run.Plan
import MeshCurve.Run.Report

/-!
# Soundness of runs

A plan that has been accepted is carried out to the end, unless its shape lacks an
operation or the first leaves are too many.  What the passes keep is that the leaves tile
the root, that their number and the totals balance, and that no leaf is finer than the
first leaves and the limits allow.
-/

namespace MeshCurve.Run

open Element Leaves Adapt

/-! ## Stages of a run -/

section

variable {E α β : Type}

theorem run_bind_of_ok {x : Staged E α} {f : α → Staged E β} {a : α}
    (h : x.run = .ok (.ok a)) : (x >>= f).run = (f a).run := by
  have done : x = pure a := h
  rw [done, pure_bind]

theorem run_liftM_of_ok {call : Except Fault α} {a : α} (h : call = .ok a) :
    (liftM call : Staged E α).run = .ok (.ok a) := by
  rw [h]
  rfl

end

/-! ## Rules -/

variable {E : Type} [Element E]

theorem Rule.never_refine : Never (E := E) Rule.coarsenAll.policy .refine := by
  intro c offered c' h
  obtain ⟨a, decided, h⟩ := bind_eq_ok_iff.mp h
  cases h
  simp only [Rule.decide, pure_eq_ok, Except.ok.injEq] at decided
  split at decided <;> cases decided

theorem Rule.never_coarsen {rule : Rule} (h : rule ≠ .coarsenAll) :
    Never (E := E) rule.policy .coarsen := by
  intro c offered c' answer
  obtain ⟨a, decided, answer⟩ := bind_eq_ok_iff.mp answer
  cases answer
  cases rule with
  | refineAll | keep => cases decided
  | coarsenAll => exact h rfl
  | refineBoundary =>
      obtain ⟨touches, _, decided⟩ := bind_eq_ok_iff.mp decided
      split at decided <;> cases decided

section

variable [LawfulNumbering E] [Grid E] [LawfulBoundary E]

theorem exists_touchesBoundary {e : E} (he : InRoot e) (rest : List E) :
    ∃ touches, Rule.touchesBoundary (e :: rest) = .ok touches := by
  have each : ∀ f ∈ List.range (shape E).numFaces,
      Decides (isRootBoundary e f) (isRootBoundary e f = .ok true) := by
    intro f hf
    obtain ⟨boundary, _, test, _⟩ := exists_faceNeighborInside he (List.mem_range.mp hf)
    exact ⟨boundary, test, by rw [test, Except.ok.injEq]⟩
  obtain ⟨touches, test, _⟩ := Decides.anyM each
  exact ⟨touches, test⟩

theorem Rule.exists_decide (rule : Rule) {offered : List E} (some' : offered ≠ [])
    (h : ∀ e ∈ offered, InRoot e) : ∃ a, rule.decide offered = .ok a := by
  cases rule with
  | refineAll => exact ⟨.refine, rfl⟩
  | coarsenAll => exact ⟨_, rfl⟩
  | keep => exact ⟨.keep, rfl⟩
  | refineBoundary =>
      obtain ⟨e, rest, rfl⟩ := List.exists_cons_of_ne_nil some'
      obtain ⟨touches, test⟩ := exists_touchesBoundary (h e List.mem_cons_self) rest
      rw [Rule.decide, test, ok_bind]
      cases touches with
      | true => exact ⟨.refine, rfl⟩
      | false => exact ⟨.keep, rfl⟩

theorem Rule.willing (rule : Rule) : Willing (E := E) InRoot rule.policy := by
  intro c offered some' h
  obtain ⟨a, decided⟩ := rule.exists_decide some' h
  have answer : rule.policy c offered = .ok (a, ()) := by
    rw [Rule.policy, decided, ok_bind, pure_eq_ok]
  refine ⟨a, (), answer, ?_⟩
  rintro rfl
  by_cases gathers : rule = .coarsenAll
  · subst gathers
    rw [Rule.decide] at decided
    split at decided
    · next several => exact several
    · cases decided
  · exact absurd answer (Rule.never_coarsen gathers c offered ())

end

/-! ## Accounts -/

/-- The number of leaves and the totals that led to it.  A rule that refines does not
coarsen. -/
structure Accounts (E : Type) [Element E] (plan : Plan) (size refinements coarsenings : Nat) :
    Prop where
  balance : size + (branching E - 1) * coarsenings =
    branching E ^ plan.initialLevel + (branching E - 1) * refinements
  unrefined : plan.rule = .coarsenAll → refinements = 0
  uncoarsened : plan.rule ≠ .coarsenAll → coarsenings = 0

section

variable {plan : Plan} {size refinements coarsenings : Nat}

/-- Each total is bounded by a number of leaves. -/
theorem Accounts.totals_lt (h : Accounts E plan size refinements coarsenings)
    (small : plan.initialLevel ≤ finest E) (room : size ≤ branching E ^ finest E) :
    refinements < wordBound ∧ coarsenings < wordBound := by
  have balance := h.balance
  have most := pow_finest_lt E
  have first : branching E ^ plan.initialLevel ≤ branching E ^ finest E :=
    Nat.pow_le_pow_right (branching_pos E) small
  have several : 1 < branching E := Shape.numChildren_pos _
  have bound (n : Nat) : n ≤ (branching E - 1) * n := Nat.le_mul_of_pos_left n (by omega)
  by_cases rule : plan.rule = .coarsenAll
  · obtain rfl := h.unrefined rule
    have := bound coarsenings
    omega
  · obtain rfl := h.uncoarsened rule
    have := bound refinements
    omega

theorem Accounts.after_pass [DecidableEq E] [LawfulNavigation E] {leaves : Leaves E}
    {out : Outcome Unit E} (h : Accounts E plan leaves.size refinements coarsenings)
    (valid : ∀ e ∈ leaves.toList, Valid e)
    (ran : adapt plan.limits plan.rule.policy () leaves = .ok out) :
    Accounts E plan out.leaves.size (refinements + out.stats.refinements)
      (coarsenings + out.stats.coarsenings) where
  balance := by
    have before := h.balance
    have counted := size_of_adapt valid ran
    rw [Nat.mul_add, Nat.mul_add]
    omega
  unrefined rule := by
    rw [h.unrefined rule, refinements_of_adapt valid ran (rule ▸ Rule.never_refine)]
  uncoarsened rule := by
    rw [h.uncoarsened rule, coarsenings_of_adapt valid ran (Rule.never_coarsen rule)]

end

/-! ## Passes -/

/-- What holds of the leaves and the metrics before the first and after every pass. -/
structure Kept (plan : Plan) (leaves : Leaves E) (m : Metrics) : Prop where
  tiled : Tiled 0 (branching E ^ finest E) leaves.toList
  coarser : ∀ e ∈ leaves.toList,
    ∃ l ≤ max plan.initialLevel (plan.limits.effectiveMaxLevel E), level e = .ok l
  collecting : m.collecting = true
  accounts : Accounts E plan leaves.size m.totalRefinements m.totalCoarsenings

theorem ensureTiling_of_tiled [LawfulNumbering E] {leaves : Leaves E}
    (tiled : Tiled 0 (branching E ^ finest E) leaves.toList) (err : LeafDefect E → RunError E) :
    (ensureTiling leaves err).run = .ok (.ok ()) := by
  rw [ensureTiling, run_bind_of_ok (run_liftM_of_ok (check_of_tiled tiled))]
  rfl

section

variable [DecidableEq E] [LawfulNumbering E] [Grid E] [LawfulBoundary E] {plan : Plan}
  {leaves : Leaves E} {m : Metrics}

theorem Kept.exists_pass (h : Kept plan leaves m) (small : plan.initialLevel ≤ finest E)
    (room : m.passes + 1 < wordBound) :
    ∃ out m', adapt plan.limits plan.rule.policy () leaves = .ok out ∧
      onePass plan leaves m = .ok (out.leaves, m') ∧ Kept plan out.leaves m' ∧
      m'.passes = m.passes + 1 := by
  have ordered := ordered_iff_laid.mpr h.tiled.laid
  have valid : ∀ e ∈ leaves.toList, Valid e := fun e he => (ordered.inRoot e he).1
  have cooperates := plan.rule.willing.cooperates hereditary_inRoot plan.limits () ordered.inRoot
  obtain ⟨out, ran, _⟩ := Adapt.exists_pass ordered cooperates
  have tiled := tiled_of_adapt h.tiled ran
  have accounts := h.accounts.after_pass valid ran
  have size : out.leaves.size ≤ branching E ^ finest E := by
    have := tiled.length_le
    rwa [Nat.zero_add] at this
  obtain ⟨refinements, coarsenings⟩ := accounts.totals_lt small size
  obtain ⟨m', recorded, totals⟩ := Metrics.exists_recordPass h.collecting tiled.laid.inRoot
    refinements coarsenings room
  refine ⟨out, m', ran, ?_, ⟨tiled, ?_, totals.collecting, ?_⟩, totals.passes⟩
  · rw [onePass, mapError_eq_ok_iff.mpr ran, ok_bind, mapError_eq_ok_iff.mpr recorded, ok_bind,
      pure_eq_ok]
  · exact level_le_of_adapt valid ran (Nat.le_max_right _ _) h.coarser
  · rwa [totals.refinements, totals.coarsenings]

theorem Kept.exists_passes (h : Kept plan leaves m) (small : plan.initialLevel ≤ finest E)
    {remaining : Nat} (room : m.passes + remaining < wordBound) (pass : Nat) :
    ∃ last m' n, (passesFrom plan remaining pass leaves m).run = .ok (.ok (last, m')) ∧
      Kept plan last m' ∧
      repeatPasses plan.limits plan.rule.policy () remaining leaves = .ok (last, n) := by
  induction remaining generalizing pass leaves m with
  | zero => exact ⟨leaves, m, 0, rfl, h, rfl⟩
  | succ remaining ih =>
      obtain ⟨out, m', ran, passed, kept, passes⟩ := h.exists_pass small (by omega)
      obtain ⟨last, m'', n, later, kept', repeated⟩ := ih kept (by omega) (pass + 1)
      refine ⟨last, m'', out.stats.refinements + n, ?_, kept', ?_⟩
      · rw [passesFrom, run_bind_of_ok (run_liftM_of_ok passed),
          run_bind_of_ok (ensureTiling_of_tiled kept.tiled _), later]
      · rw [repeatPasses, ran, ok_bind, repeated]
        rfl

end

/-! ## Runs -/

/-- What a report says of a run of a plan, whatever the rule, the limits and the number of
passes. -/
structure Report.Sound (plan : Plan) (r : Report) : Prop where
  shape : r.shape = plan.shape
  initialLeaves : r.initialLeaves = plan.shape.numChildren ^ plan.initialLevel
  balance : r.finalLeaves + (plan.shape.numChildren - 1) * r.coarsenings =
    r.initialLeaves + (plan.shape.numChildren - 1) * r.refinements
  finestLevel : r.finestLevel ≤ max plan.initialLevel
    (min (plan.maxLevel.getD plan.shape.maxLevel) plan.shape.maxLevel)

/-- The first leaves are more than a run may start from. -/
def Plan.StartsTooFine (plan : Plan) : Prop :=
  maxInitialLeaves < plan.shape.numChildren ^ plan.initialLevel

instance (plan : Plan) : Decidable plan.StartsTooFine := inferInstanceAs (Decidable (_ < _))

section

variable {plan : Plan}

theorem effectiveMaxLevel_eq (same : shape E = plan.shape) : plan.limits.effectiveMaxLevel E =
    min (plan.maxLevel.getD plan.shape.maxLevel) plan.shape.maxLevel := by
  rw [Limits.effectiveMaxLevel, same, Plan.limits]
  cases plan.maxLevel with
  | some l => rfl
  | none => cases plan.shape <;> rfl

theorem runOn_of_startsTooFine [DecidableEq E] (same : shape E = plan.shape)
    (h : plan.StartsTooFine) :
    (runOn E plan).run = .ok (.error (.tooManyLeaves plan.initialLevel plan.shape)) := by
  have many : maxInitialLeaves < (shape E).numChildren.pow plan.initialLevel := same ▸ h
  rw [runOn, if_pos many, same]
  rfl

theorem exists_uniform_kept [LawfulCurve E] (same : shape E = plan.shape)
    (small : plan.initialLevel ≤ finest E) (room : ¬ plan.StartsTooFine) :
    ∃ first : Leaves E, uniform plan.initialLevel = .ok first ∧
      TiledAt plan.initialLevel first ∧ Kept plan first .initial := by
  have few : branching E ^ plan.initialLevel ≤ maxInitialLeaves := by
    rw [branching, same]
    exact Nat.not_lt.mp room
  have bytes : (shape E).recordBytes ≤ 20 := by cases shape E <;> decide
  have stored : HasRoom E plan.initialLevel := by
    have := Nat.mul_le_mul few bytes
    unfold maxInitialLeaves at this
    unfold HasRoom
    omega
  obtain ⟨first, made, tiledAt⟩ := exists_uniform small stored
  refine ⟨first, made, tiledAt, tiledAt.tiled, ?_, rfl, ?_⟩
  · exact fun e he => ⟨_, Nat.le_max_left _ _, tiledAt.level e he⟩
  · refine ⟨?_, fun _ => rfl, fun _ => rfl⟩
    rw [tiledAt.consecutive.2]
    rfl

/-- A run from few enough leaves is carried out, and reports on its first and last leaves. -/
theorem exists_course [DecidableEq E] [LawfulCurve E] [Grid E] [LawfulBoundary E]
    (same : shape E = plan.shape) (small : plan.initialLevel ≤ finest E)
    (room : ¬ plan.StartsTooFine) (passes : plan.passes < wordBound) :
    ∃ (first last : Leaves E) (m : Metrics) (n f : Nat),
      uniform plan.initialLevel = .ok first ∧ TiledAt plan.initialLevel first ∧
      (passesFrom plan plan.passes 0 first .initial).run = .ok (.ok (last, m)) ∧
      repeatPasses plan.limits plan.rule.policy () plan.passes first = .ok (last, n) ∧
      Kept plan last m ∧ last.maxLevel? = .ok (some f) ∧
      (runOn E plan).run = .ok (.ok
        ⟨shape E, first.size, last.size, m.totalRefinements, m.totalCoarsenings, f⟩) := by
  obtain ⟨first, made, tiledAt, kept⟩ := exists_uniform_kept same small room
  have fresh : Metrics.initial.passes + plan.passes < wordBound := by
    rw [Metrics.initial, Nat.zero_add]
    exact passes
  obtain ⟨last, m, n, ran, kept', repeated⟩ := kept.exists_passes small fresh 0
  obtain ⟨ls, _, counted⟩ := exists_countPerLevel kept'.tiled.laid.inRoot
  obtain ⟨f, _, top⟩ :=
    exists_maxLevel? (fun e he => (kept'.tiled.laid.inRoot e he).1) kept'.tiled.ne_nil
  have few : ¬ maxInitialLeaves < (shape E).numChildren.pow plan.initialLevel := same ▸ room
  refine ⟨first, last, m, n, f, made, tiledAt, ran, repeated, kept', top, ?_⟩
  rw [runOn, if_neg few, run_bind_of_ok (run_liftM_of_ok made),
    run_bind_of_ok (ensureTiling_of_tiled kept.tiled _), run_bind_of_ok ran,
    run_bind_of_ok (run_liftM_of_ok counted), run_bind_of_ok (run_liftM_of_ok top)]
  rfl

theorem exists_runOn [DecidableEq E] [LawfulCurve E] [Grid E] [LawfulBoundary E]
    (same : shape E = plan.shape) (small : plan.initialLevel ≤ finest E)
    (room : ¬ plan.StartsTooFine) (passes : plan.passes < wordBound) :
    ∃ r, (runOn E plan).run = .ok (.ok r) ∧ r.Sound plan := by
  obtain ⟨first, last, m, n, f, _, tiledAt, _, _, kept, top, ran⟩ :=
    exists_course same small room passes
  obtain ⟨e, he, hl⟩ := exists_of_maxLevel? top
  obtain ⟨l, bound, hl'⟩ := kept.coarser e he
  cases hl.symm.trans hl'
  have size := tiledAt.consecutive.2
  have balance := kept.accounts.balance
  rw [← size] at balance
  rw [effectiveMaxLevel_eq same] at bound
  rw [branching, same] at size balance
  exact ⟨_, ran, same, size, balance, bound⟩

end

/-! ## Accepted plans -/

/-- An accepted plan is carried out to the end, unless its shape lacks an operation that it
requires or its first leaves are too many: no precondition fails on the way, and no check
of the leaves. -/
theorem run_of_validate {d : Draft} {plan : Plan} (counted : d.passes < 0x100000000)
    (accepted : d.validate = .ok plan) :
    (∃ op ∈ plan.requiredOps, plan.shape.supports op = false ∧
      plan.run.run =
        .ok (.error (.lacksOperation plan.shape (.unsupported plan.shape op)))) ∨
    (∀ op ∈ plan.requiredOps, plan.shape.supports op = true) ∧
      (plan.StartsTooFine ∧
          plan.run.run = .ok (.error (.tooManyLeaves plan.initialLevel plan.shape)) ∨
        ¬ plan.StartsTooFine ∧ ∃ r, plan.run.run = .ok (.ok r) ∧ r.Sound plan) := by
  obtain ⟨shape, ops, _, _, coarse, _, rfl⟩ := Draft.validate_eq_ok_iff.mp accepted
  cases lacking : ops.find? fun op => !shape.supports op with
  | some op =>
      have unsupported := List.find?_some lacking
      refine .inl ⟨op, List.mem_of_find?_eq_some lacking, by simpa using unsupported, ?_⟩
      rw [Plan.run, SchemeTable.ofShapes_of_lacking lacking]
      rfl
  | none =>
      obtain ⟨table, built, scheme⟩ := SchemeTable.ofShapes_of_supports lacking
      refine .inr ⟨by simpa using lacking, ?_⟩
      simp only [Plan.run, built, scheme]
      have same := shape_carrier shape
      by_cases many : Plan.StartsTooFine { d with shape, requiredOps := ops }
      · exact .inl ⟨many, runOn_of_startsTooFine same many⟩
      · have small : d.initialLevel ≤ finest shape.Carrier := by rwa [finest, same]
        have room : d.passes < wordBound := counted.trans (by decide)
        exact .inr ⟨many, exists_runOn same small many room⟩

/-- Two passes that refine the tets at the boundary, at most to level 3. -/
def boundaryTets : Draft where
  name := "tets"
  shapeName := "tet"
  initialLevel := 1
  passes := 2
  rule := .refineBoundary
  minLevel := 0
  maxLevel := some 3
  recursive := true
  maxRefinements := 0
  maxCoarsenings := 0
  requiredOps := ["face_neighbor"]

theorem run_boundaryTets :
    ∃ plan r, boundaryTets.validate = .ok plan ∧ plan.run.run = .ok (.ok r) ∧ r.Sound plan := by
  have accepted : boundaryTets.validate =
      .ok { boundaryTets with shape := .tet, requiredOps := [.faceNeighbor] } := rfl
  rcases run_of_validate (by decide) accepted with ⟨op, hop, lacks, _⟩ | ⟨_, few | ⟨_, done⟩⟩
  · cases List.mem_singleton.mp hop
    cases lacks
  · exact absurd few.1 (by decide)
  · exact ⟨_, done.choose, accepted, done.choose_spec⟩

end MeshCurve.Run
