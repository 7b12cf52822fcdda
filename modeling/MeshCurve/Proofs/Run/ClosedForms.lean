import MeshCurve.Proofs.Run.Soundness

/-!
# Closed forms of runs

The rules that treat all leaves alike lead from uniform leaves to uniform leaves, and what
level a run ends on depends only on the first level, the number of passes and the limits.
-/

namespace MeshCurve.Run

open Element Leaves Adapt

/-! ## The last level -/

/-- The finest level that refining may reach. -/
def Plan.top (plan : Plan) : Nat :=
  min (plan.maxLevel.getD plan.shape.maxLevel) plan.shape.maxLevel

/-- The level of the last leaves, for the rules that treat all leaves alike. -/
inductive Plan.LeadsTo (plan : Plan) : Nat → Prop
  | refineAll : plan.rule = .refineAll → plan.recursive = false →
      plan.LeadsTo (max plan.initialLevel (min (plan.initialLevel + plan.passes) plan.top))
  | refineAllAgain : plan.rule = .refineAll → plan.recursive = true → 1 ≤ plan.passes →
      plan.LeadsTo (max plan.initialLevel plan.top)
  | coarsenAll : plan.rule = .coarsenAll →
      plan.LeadsTo (max (plan.initialLevel - plan.passes) (min plan.initialLevel plan.minLevel))
  | keep : plan.rule = .keep → plan.LeadsTo plan.initialLevel

/-! ## Rules -/

section

variable {E : Type} [Element E]

theorem Rule.refineAll_answers : Answers (E := E) Rule.refineAll.policy .refine := by
  intro c c' offered b h
  cases h
  rfl

theorem Rule.keep_answers : Answers (E := E) Rule.keep.policy .keep := by
  intro c c' offered b h
  cases h
  rfl

theorem Rule.coarsenAll_gathers : Gathers (E := E) Rule.coarsenAll.policy where
  family c offered several := by
    refine ⟨(), ?_⟩
    rw [policy, decide, if_pos several]
    rfl
  single c e := ⟨(), rfl⟩

variable [DecidableEq E] [LawfulNumbering E] {plan : Plan} {first last : Leaves E} {l n : Nat}

theorem Plan.LeadsTo.tiledAt (leads : plan.LeadsTo l) (same : Element.shape E = plan.shape)
    (freely : plan.maxRefinements = 0) (freely' : plan.maxCoarsenings = 0)
    (h : TiledAt plan.initialLevel first)
    (ran : repeatPasses plan.limits plan.rule.policy () plan.passes first = .ok (last, n)) :
    TiledAt l last := by
  have refined (rule : plan.rule = .refineAll) :
      TiledAt ((plan.limits.refinedLevel E)^[plan.passes] plan.initialLevel) last :=
    tiledAt_of_repeatPasses (fun h ran =>
      tiledAt_of_refining h (rule ▸ Rule.refineAll_answers) freely ran)
      h ran
  cases leads with
  | refineAll rule once =>
      have done := refined rule
      rwa [Limits.iterate_refinedLevel once, effectiveMaxLevel_eq same] at done
  | refineAllAgain rule again some' =>
      have done := refined rule
      rwa [Limits.iterate_refinedLevel_of_recursive again some', effectiveMaxLevel_eq same] at done
  | coarsenAll rule =>
      have done := tiledAt_of_repeatPasses (fun h ran =>
        tiledAt_of_merging h (rule ▸ Rule.coarsenAll_gathers) freely' ran) h ran
      rwa [Limits.iterate_mergedLevel] at done
  | keep rule =>
      have keeps : Answers (E := E) plan.rule.policy .keep := rule ▸ Rule.keep_answers
      have never : Never (E := E) plan.rule.policy .coarsen := keeps.never (by decide)
      have stays {p p₁ : Progress Unit E} {e : E} {rest : List E} {a : Adapt.Action}
          (asked : p.ask plan.rule.policy (e :: rest) = .ok (a, p₁)) : a ≠ .refine := by
        rw [keeps.of_ask asked]
        decide
      have done := tiledAt_of_repeatPasses (f := id) (fun h ran =>
        tiledAt_of_resting h stays (.inl never) ran) h ran
      rwa [Function.iterate_id] at done

end

/-! ## Uniform leaves and runs -/

/-- A plan whose operations are supported is carried out on the elements of its shape. -/
theorem run_of_supports {plan : Plan}
    (supported : ∀ op ∈ plan.requiredOps, plan.shape.supports op = true) :
    plan.run = runOn plan.shape.Carrier plan := by
  have lacking : plan.requiredOps.find? (fun op => !plan.shape.supports op) = none := by
    simpa using supported
  obtain ⟨table, built, scheme⟩ := SchemeTable.ofShapes_of_supports lacking
  rw [Plan.run, built]
  simp only [scheme]

/-- A run that is carried out, from uniform leaves to uniform leaves of level `l`. -/
structure Plan.EndsOn (plan : Plan) (l : Nat) (first last : Leaves plan.shape.Carrier)
    (m : Metrics) (r : Report) : Prop where
  starts : uniform plan.initialLevel = .ok first
  passes : (passesFrom plan plan.passes 0 first .initial).run = .ok (.ok (last, m))
  ends : uniform l = .ok last
  report : plan.run.run = .ok (.ok r)
  finalLeaves : r.finalLeaves = plan.shape.numChildren ^ l
  finestLevel : r.finestLevel = l

theorem exists_endsOn {d : Draft} {plan : Plan} {l : Nat} (counted : d.passes < 0x100000000)
    (accepted : d.validate = .ok plan)
    (supported : ∀ op ∈ plan.requiredOps, plan.shape.supports op = true)
    (few : plan.shape.numChildren ^ plan.initialLevel ≤ maxInitialLeaves)
    (freely : plan.maxRefinements = 0) (freely' : plan.maxCoarsenings = 0)
    (leads : plan.LeadsTo l) (room : HasRoom plan.shape.Carrier l) :
    ∃ first last m r, plan.EndsOn l first last m r := by
  have same := shape_carrier plan.shape
  obtain ⟨shape, ops, _, _, coarse, _, read⟩ := Draft.validate_eq_ok_iff.mp accepted
  have small : plan.initialLevel ≤ finest plan.shape.Carrier := by
    rw [finest_carrier, read]
    exact coarse
  have bounded : plan.passes < wordBound := by
    rw [read]
    exact counted.trans (by decide)
  obtain ⟨first, last, m, n, f, made, tiledAt, ran, repeated, _, top, report⟩ :=
    exists_course same small (Nat.not_lt.mpr few) bounded
  have done := leads.tiledAt same freely freely' tiledAt repeated
  have finest := top.symm.trans (completeTo_of_tiledAt done).top
  obtain rfl : f = l := Option.some.inj (Except.ok.inj finest)
  rw [← run_of_supports supported] at report
  have size := done.consecutive.2
  rw [branching_carrier] at size
  exact ⟨first, last, m, _, made, ran, done.uniform_eq room, report, size, rfl⟩

/-- On every level the walk along the successors meets all elements in the order of their
numbers, and they are the uniform leaves wherever an array can hold them.  From uniform leaves
the rules that treat all leaves alike lead to uniform leaves, of a level known in advance. -/
theorem uniform_leaves_and_runs :
    (∀ (s : Shape) (l : Nat), l ≤ s.maxLevel →
      ∃ (first : s.Carrier) (walked : Array s.Carrier), firstDescendant root l = .ok first ∧
        walkFrom l (s.numChildren ^ l - 1) first #[] = .ok walked ∧
        IsUniform l (⟨walked.toList⟩ : Leaves s.Carrier) ∧
        uniform l = if HasRoom s.Carrier l then .ok ⟨walked.toList⟩ else .error .range) ∧
    ∀ (d : Draft) (plan : Plan) (l : Nat), d.passes < 0x100000000 → d.validate = .ok plan →
      (∀ op ∈ plan.requiredOps, plan.shape.supports op = true) →
      plan.shape.numChildren ^ plan.initialLevel ≤ maxInitialLeaves →
      plan.maxRefinements = 0 → plan.maxCoarsenings = 0 →
      plan.LeadsTo l → HasRoom plan.shape.Carrier l →
      ∃ first last m r, plan.EndsOn l first last m r := by
  constructor
  · intro s l hl
    rw [← finest_carrier] at hl
    rw [← branching_carrier]
    obtain ⟨first, walked, down, walk, tiledAt⟩ := exists_whole_walk hl
    refine ⟨first, walked, down, walk, tiledAt.isUniform, ?_⟩
    split
    · next room => exact uniform_of_walk hl room down walk
    · next full => exact uniform_of_not_hasRoom hl full
  · intro d plan l counted accepted supported few freely freely' leads room
    exact exists_endsOn counted accepted supported few freely freely' leads room

/-- Two passes that coarsen tets of level 3, the second of them in vain. -/
def coarsenedTets : Draft where
  name := "tets"
  shapeName := "tet"
  initialLevel := 3
  passes := 2
  rule := .coarsenAll
  minLevel := 2
  maxLevel := none
  recursive := false
  maxRefinements := 0
  maxCoarsenings := 0
  requiredOps := []

theorem uniform_leaves_and_runs_tet :
    2 ≤ Shape.maxLevel .tet ∧ HasRoom Tet 2 ∧
      (∃ (first : Tet) (walked : Array Tet), firstDescendant root 2 = .ok first ∧
        walkFrom 2 63 first #[] = .ok walked ∧ IsUniform 2 (⟨walked.toList⟩ : Leaves Tet) ∧
        uniform 2 = .ok (⟨walked.toList⟩ : Leaves Tet)) ∧
      ∃ plan, coarsenedTets.validate = .ok plan ∧ plan.LeadsTo 2 ∧
        ∃ first last m r, plan.EndsOn 2 first last m r := by
  have fine : 2 ≤ Shape.maxLevel .tet := by decide
  have room : HasRoom Tet 2 := by decide
  obtain ⟨walks, runs⟩ := uniform_leaves_and_runs
  obtain ⟨first, walked, down, walk, whole, made⟩ := walks .tet 2 fine
  refine ⟨fine, room, ⟨first, walked, down, walk, whole, made.trans (if_pos room)⟩, ?_⟩
  have accepted : coarsenedTets.validate =
      .ok { coarsenedTets with shape := .tet, requiredOps := [] } := rfl
  have leads : Plan.LeadsTo { coarsenedTets with shape := .tet, requiredOps := [] } 2 :=
    .coarsenAll rfl
  refine ⟨_, accepted, leads, ?_⟩
  exact runs coarsenedTets _ 2 (by decide) accepted (by simp) (by decide) rfl rfl leads room

/-- There is no array of all tets of level 20, though the shape has finer levels. -/
theorem uniform_tet_twenty :
    20 ≤ Shape.maxLevel .tet ∧ (uniform 20 : Except Fault (Leaves Tet)) = .error .range :=
  ⟨by decide, uniform_of_not_hasRoom (by decide) (by decide)⟩

end MeshCurve.Run
