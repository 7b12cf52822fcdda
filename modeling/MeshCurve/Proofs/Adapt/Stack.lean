import MeshCurve.Proofs.Adapt.Dissection

/-!
# The stack of a refinement

Refining one leaf is a loop over a stack of pending elements.  What has been emitted and what
is still pending are a dissection of the leaf at any time, and an iteration that emits nothing
takes it to the next one.  So the number of splits says how many leaves come out and how many
iterations that takes.  The stack holds no more than the later siblings on each level down to
that of its top.
-/

namespace MeshCurve.Adapt

open Element

variable {Client E : Type} [Element E]

/-! ## The stack -/

/-- For every element of the stack there are at most `branching - 1` others below it for each
level from `l` to its own. -/
inductive Stacked (l top : Nat) : List E → Prop
  | nil : Stacked l top []
  | cons {d : E} {rest : List E} {k : Nat} : level d = .ok (l + k) → l + k ≤ top →
      rest.length ≤ (branching E - 1) * k → Stacked l top rest → Stacked l top (d :: rest)

namespace Stacked

variable {l top : Nat} {pending rest cs : List E} {d : E}

theorem length_le (h : Stacked l top pending) :
    pending.length ≤ 1 + (branching E - 1) * (top - l) := by
  cases h with
  | nil => simp
  | @cons d rest k _ fine room =>
      have depth : (branching E - 1) * k ≤ (branching E - 1) * (top - l) :=
        Nat.mul_le_mul_left _ (by omega)
      rw [List.length_cons]
      omega

theorem append {k : Nat} (h : Stacked l top rest) (fine : l + (k + 1) ≤ top)
    (room : rest.length ≤ (branching E - 1) * k)
    (same : ∀ c ∈ cs, level c = .ok (l + (k + 1))) (few : cs.length ≤ branching E) :
    Stacked l top (cs ++ rest) := by
  induction cs with
  | nil => exact h
  | cons c cs ih =>
      obtain ⟨hc, later⟩ := List.forall_mem_cons.mp same
      rw [List.length_cons] at few
      have behind : (cs ++ rest).length ≤ (branching E - 1) * (k + 1) := by
        rw [List.length_append, Nat.mul_succ]
        omega
      exact .cons hc fine behind (ih later (by omega))

theorem split {m : Nat} (h : Stacked l top (d :: rest)) (hm : level d = .ok m) (coarse : m < top)
    (hcs : children d = .ok cs) : Stacked l top (cs ++ rest) := by
  cases h with
  | @cons _ _ k hk _ room below =>
      obtain rfl := Except.ok.inj (hm.symm.trans hk)
      refine below.append coarse room ?_ (length_children hcs).le
      intro c hc
      obtain ⟨m, hm, hc⟩ := level_of_mem_children hcs hc
      cases hk.symm.trans hm
      exact hc

theorem tail (h : Stacked l top (d :: rest)) : Stacked l top rest := by
  cases h with
  | cons _ _ _ below => exact below

end Stacked

/-! ## Iterations -/

namespace Refinement

/-- The loop gets from one state to another in `n` iterations. -/
inductive Runs (limits : Limits) (policy : Policy Client E) (s : Refinement Client E) :
    (n : Nat) → Refinement Client E → Prop
  | refl : Runs limits policy s 0 s
  | next {n : Nat} {d : E} {rest : List E} {requested : Bool} {p : Progress Client E}
      {t : Refinement Client E} : Runs limits policy s n ⟨d :: rest, requested, p⟩ →
      step limits policy d rest requested p = .ok t → Runs limits policy s (n + 1) t

/-- What an iteration does with the element on top of the stack. -/
inductive Iteration (limits : Limits) (d : E) (rest : List E) (p : Progress Client E) :
    (requested : Bool) → Refinement Client E → Prop
  | emit {q : Progress Client E} : q.leaves = p.leaves → q.groups = p.groups →
      q.stats = p.stats → Iteration limits d rest p false ⟨rest, false, q.emit d⟩
  | split {requested : Bool} {cs : List E} {q : Progress Client E} : q.leaves = p.leaves →
      q.groups = p.groups → q.stats = p.stats → limits.allowsRefine d = .ok true →
      children d = .ok cs → Iteration limits d rest p requested
        ⟨cs ++ rest, false, q.split ⟨.refine, d, cs, [d]⟩⟩

section

variable {limits : Limits} {policy : Policy Client E} {s t : Refinement Client E} {n : Nat}

theorem Runs.run_eq (h : Runs limits policy s n t) :
    run limits policy s.pending s.requested s.progress =
      run limits policy t.pending t.requested t.progress := by
  induction h with
  | refl => rfl
  | next _ hs ih => rw [ih, run_of_step hs]

theorem iteration_of_step {d : E} {rest : List E} {requested : Bool} {p : Progress Client E}
    (h : step limits policy d rest requested p = .ok t)
    (allowed : requested = true → limits.allowsRefine d = .ok true) :
    Iteration limits d rest p requested t := by
  cases requested with
  | false =>
      obtain ⟨again, move⟩ := move_of_step [] h
      obtain ⟨pending, requested, q⟩ := t
      cases again
      cases move with
      | place => exact .emit rfl rfl rfl
      | settle _ _ asked =>
          obtain ⟨_, leaves, groups, stats⟩ := of_ask asked
          exact .emit leaves groups stats
      | descend _ may asked hcs =>
          obtain ⟨_, leaves, groups, stats⟩ := of_ask asked
          exact .split leaves groups stats may.1 hcs
  | true =>
      obtain ⟨_, wanted, h⟩ := bind_eq_ok_iff.mp h
      cases wanted
      obtain ⟨t?, ht, h⟩ := bind_eq_ok_iff.mp h
      obtain ⟨cs, hcs, rfl⟩ := refine?_of_allowsRefine (allowed rfl) (during_eq_ok_iff.mp ht)
      cases h
      exact .split rfl rfl rfl (allowed rfl) hcs

end

/-- The loop after `n` iterations, `r` of which were splits, with `made` emitted so far. -/
structure Underway (limits : Limits) (policy : Policy Client E) (e : E) (l : Nat)
    (p : Progress Client E) (made : List E) (r n : Nat) (t : Refinement Client E) : Prop where
  reaches : Reaches policy p t.progress
  first : t.requested = true → t.pending = [e]
  begun : t.requested = false → 1 ≤ r
  dissects : Dissects (limits.effectiveMaxLevel E) e r (made ++ t.pending)
  stacked : Stacked l (limits.effectiveMaxLevel E) t.pending
  iterations : n + t.pending.length = 1 + branching E * r
  leaves : t.progress.leaves.toList = p.leaves.toList ++ made
  groups : t.progress.groups.size = p.groups.size + r
  stats : t.progress.stats = { p.stats with refinements := p.stats.refinements + r }

section

variable {limits : Limits} {policy : Policy Client E} {p q : Progress Client E} {d e : E}
  {made rest : List E} {l r n : Nat} {requested : Bool} {s t : Refinement Client E}

theorem underway_start (policy : Policy Client E) (p : Progress Client E)
    (hl : level e = .ok l) (allowed : limits.allowsRefine e = .ok true) :
    Underway limits policy e l p [] 0 0 ⟨[e], true, p⟩ where
  reaches := .refl policy p
  first _ := rfl
  begun := nofun
  dissects := .whole
  stacked := by
    obtain ⟨m, hm, coarse⟩ := exists_level_of_allowsRefine allowed
    cases hl.symm.trans hm
    exact .cons (k := 0) hl coarse.le (Nat.zero_le _) .nil
  iterations := by simp
  leaves := (List.append_nil _).symm
  groups := rfl
  stats := rfl

theorem Underway.of_iteration
    (h : Underway limits policy e l p made r n ⟨d :: rest, requested, q⟩)
    (iteration : Iteration limits d rest q requested t)
    (reaches : Reaches policy p t.progress) :
    ∃ made' r', Underway limits policy e l p made' r' (n + 1) t := by
  have count := h.iterations
  rw [List.length_cons] at count
  cases iteration with
  | emit leaves groups stats =>
      refine ⟨made ++ [d], r, reaches, nofun, fun _ => h.begun rfl, ?_, h.stacked.tail, ?_, ?_,
        groups ▸ h.groups, stats ▸ h.stats⟩
      · rw [← List.append_cons]
        exact h.dissects
      · change n + 1 + rest.length = _
        omega
      · rw [Progress.leaves_emit, leaves, h.leaves, List.append_assoc]
  | @split _ cs q' leaves groups stats allowed hcs =>
      obtain ⟨m, hm, coarse⟩ := exists_level_of_allowsRefine allowed
      have dissects := h.dissects
      rw [List.append_cons] at dissects
      refine ⟨made, r + 1, reaches, nofun, fun _ => Nat.le_add_left 1 r, ?_,
        h.stacked.split hm coarse hcs, ?_, leaves ▸ h.leaves, ?_, ?_⟩
      · rw [← List.append_assoc]
        exact dissects.split hm coarse hcs
      · have family : cs.length = branching E := length_children hcs
        change n + 1 + (cs ++ rest).length = _
        rw [List.length_append, family, Nat.mul_succ]
        omega
      · rw [Progress.groups_split, Array.size_push, groups, h.groups, Nat.add_assoc]
      · rw [Progress.stats_split, stats, h.stats]
        rfl

variable [LawfulForest E]

theorem hereditary_below (he : Valid e) : Hereditary (Below e) where
  valid below := below.valid he
  child := by
    intro d c i below step
    obtain ⟨l, _, hl⟩ := level_of_valid (below.valid he)
    exact below.trans ⟨1, i, .single (bounds_of_child step hl).2 step⟩

theorem Underway.exists_next (he : Valid e) (allowed : limits.allowsRefine e = .ok true)
    (h : Underway limits policy e l p made r n ⟨d :: rest, requested, q⟩)
    (answered : ¬ Balks (Below e) policy [] p (step limits policy d rest requested q)) :
    ∃ t, step limits policy d rest requested q = .ok t ∧
      ∃ made' r', Underway limits policy e l p made' r' (n + 1) t := by
  have below : Below e d := h.dissects.isBelow d (by simp)
  obtain ⟨m, _, hm⟩ := level_of_valid (below.valid he)
  obtain ⟨t, hs, _, reaches, _⟩ :=
    exists_step answered (hereditary_below he) h.reaches below hm
  have iteration := iteration_of_step hs fun asked => by
    obtain ⟨rfl, _⟩ := List.cons.inj (h.first asked)
    exact allowed
  exact ⟨t, hs, h.of_iteration iteration reaches⟩

theorem underway_of_runs (he : Valid e) (hl : level e = .ok l)
    (allowed : limits.allowsRefine e = .ok true) (h : Runs limits policy ⟨[e], true, p⟩ n t) :
    ∃ made r, Underway limits policy e l p made r n t := by
  induction h with
  | refl => exact ⟨[], 0, underway_start policy p hl allowed⟩
  | next _ hs ih =>
      obtain ⟨made, r, underway⟩ := ih
      obtain ⟨t, hs', underway'⟩ := underway.exists_next he allowed (hs ▸ not_balks_ok _)
      cases hs.symm.trans hs'
      exact underway'

/-- The loop comes to an end from wherever it is. -/
theorem Underway.exists_end (he : Valid e) (allowed : limits.allowsRefine e = .ok true)
    (h : Underway limits policy e l p made r n t) (before : Runs limits policy s n t)
    (answered : ¬ Balks (Below e) policy [] p
      (run limits policy t.pending t.requested t.progress)) :
    ∃ p' made' r' n', Runs limits policy s n' ⟨[], false, p'⟩ ∧
      Underway limits policy e l p made' r' n' ⟨[], false, p'⟩ := by
  -- an iteration may lengthen the stack, but makes it lighter
  induction hw : stackWeight t.pending using Nat.strong_induction_on
    generalizing made r n t with
  | _ w ih =>
    obtain ⟨pending, requested, q⟩ := t
    cases pending with
    | nil =>
        cases requested with
        | true => exact absurd (h.first rfl) (by simp)
        | false => exact ⟨q, made, r, n, before, h⟩
    | cons d rest =>
        obtain ⟨t, hs, made', r', later⟩ :=
          h.exists_next he allowed fun b => answered b.run_of_step
        rw [run_of_step hs] at answered
        exact ih _ (hw ▸ stackWeight_step_lt hs) later (before.next hs) answered rfl

end

end Refinement

open Refinement

/-- Whatever a policy answers, refining an element comes to an end.  The number `r` of its splits,
which a full tree bounds, says how many iterations it takes and into how many leaves it cuts the
element up; how high the stack grows is bounded by the levels there are. -/
theorem refine_stops (s : Shape) {Client : Type} {e : s.Carrier} (he : Valid e) {l : Nat}
    (hl : level e = .ok l) {limits : Limits} (allowed : limits.allowsRefine e = .ok true)
    {policy : Policy Client s.Carrier} {p : Progress Client s.Carrier}
    (h : Obliges policy [] p.client
      ((offersIn (·.offers.toList) (refine limits policy e p)).drop p.offers.size)) :
    ∃ p' made r, refine limits policy e p = .ok p' ∧
      Runs limits policy ⟨[e], true, p⟩ (1 + s.numChildren * r) ⟨[], false, p'⟩ ∧
      (∀ n t, Runs limits policy ⟨[e], true, p⟩ n t →
        t.pending.length ≤ 1 + (s.numChildren - 1) * (limits.effectiveMaxLevel s.Carrier - l) ∧
          (t.pending = [] → n = 1 + s.numChildren * r)) ∧
      1 ≤ r ∧
      r ≤ (s.numChildren ^ (limits.effectiveMaxLevel s.Carrier - l) - 1) / (s.numChildren - 1) ∧
      p'.stats = { p.stats with refinements := p.stats.refinements + r } ∧
      p'.groups.size = p.groups.size + r ∧
      p'.leaves.toList = p.leaves.toList ++ made ∧
      made.length = 1 + (s.numChildren - 1) * r ∧ Partitions e made := by
  obtain ⟨p', made, r, n, runs, done⟩ :=
    (underway_start policy p hl allowed).exists_end he allowed .refl h.not_balks
  have dissects := done.dissects
  rw [List.append_nil] at dissects
  have stops : refine limits policy e p = .ok p' := by
    rw [refine, runs.run_eq, run, pure_eq_ok]
  obtain rfl : n = 1 + branching s.Carrier * r := done.iterations
  rw [branching_carrier] at runs
  refine ⟨p', made, r, stops, runs, ?_, done.begun rfl, ?_, done.stats, done.groups, done.leaves,
    ?_, dissects.partitions he⟩
  · intro n t runs'
    obtain ⟨made', r', underway⟩ := underway_of_runs he hl allowed runs'
    rw [← branching_carrier]
    refine ⟨underway.stacked.length_le, ?_⟩
    intro empty
    obtain ⟨pending, requested, q⟩ := t
    obtain rfl : pending = [] := empty
    have ended : refine limits policy e p = .ok q := by
      rw [refine, runs'.run_eq, run, pure_eq_ok]
    obtain rfl := Except.ok.inj (stops.symm.trans ended)
    obtain rfl : r = r' := Nat.add_left_cancel (done.groups.symm.trans underway.groups)
    exact underway.iterations
  · rw [← branching_carrier]
    exact dissects.splits_le hl
  · rw [← branching_carrier]
    exact dissects.length_eq

/-- A quad beside the root. -/
def outerQuad : Quad := ⟨-0x20000000, 0x40000000, 1⟩

/-- A pass that has refined one leaf and kept another. -/
def midPass : Progress Nat Quad := ⟨0, #[], #[⟨0, 0, 1⟩], #[], ⟨1, 0, 1⟩⟩

def threeAtMost : Limits := ⟨0, 3, true, ⟨3, 0⟩⟩

/-- The quad is refined and then its first child, which is all that the budget allows. -/
theorem refine_stops_quad :
    Valid outerQuad ∧ level outerQuad = .ok 1 ∧ threeAtMost.allowsRefine outerQuad = .ok true ∧
      Obliges (seesaw Quad) [] midPass.client ((offersIn (·.offers.toList)
        (refine threeAtMost (seesaw Quad) outerQuad midPass)).drop midPass.offers.size) ∧
      ∃ p' made, refine threeAtMost (seesaw Quad) outerQuad midPass = .ok p' ∧
        Runs threeAtMost (seesaw Quad) ⟨[outerQuad], true, midPass⟩ 9 ⟨[], false, p'⟩ ∧
        (∀ n t, Runs threeAtMost (seesaw Quad) ⟨[outerQuad], true, midPass⟩ n t →
          t.pending.length ≤ 7 ∧ (t.pending = [] → n = 9)) ∧
        p'.stats = ⟨3, 0, 1⟩ ∧ p'.groups.size = 2 ∧
        p'.leaves.toList = midPass.leaves.toList ++ made ∧ made.length = 7 ∧
        Partitions outerQuad made := by
  have valid : Valid outerQuad := by decide
  have depth : level outerQuad = .ok 1 := rfl
  have allowed : threeAtMost.allowsRefine outerQuad = .ok true := by rfl
  have answered := (seesaw_willing (Below outerQuad)).obliges (hereditary_below valid) (.refl _)
    depth (by decide) threeAtMost midPass
  obtain ⟨p', made, r, stops, runs, always, _, _, stats, groups, leaves, length, partitions⟩ :=
    refine_stops .quad valid depth allowed (p := midPass) answered
  have result : (refine threeAtMost (seesaw Quad) outerQuad midPass).map Progress.stats =
      .ok ⟨3, 0, 1⟩ := by cbv
  rw [stops] at result
  have final : p'.stats = ⟨3, 0, 1⟩ := Except.ok.inj result
  obtain rfl : r = 2 := by
    have refinements := congrArg Stats.refinements (stats.symm.trans final)
    exact Nat.add_left_cancel (n := 1) refinements
  exact ⟨valid, depth, allowed, answered, p', made, stops, runs, always, final, groups, leaves,
    length, partitions⟩

end MeshCurve.Adapt
