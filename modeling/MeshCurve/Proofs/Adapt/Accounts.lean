import MeshCurve.Proofs.Adapt.Settling
import Mathlib.Data.List.Pairwise

/-!
# The accounts of a pass

The counts of a pass can be read off its two arrays.  What has been placed stays, so a leaf
that is kept is found in the new array.  A leaf that is refined leaves something strictly
below it there, and a leaf that is merged something strictly above it; the new leaves being
separate, neither is found there itself.
-/

namespace MeshCurve.Adapt

open Element Leaves

variable {Client E : Type}

/-! ## Bounds -/

/-- The changes of a pass are not more than the budget allows. -/
structure Budget.Covers (b : Budget) (stats : Stats) : Prop where
  refinements : 0 < b.maxRefinements → stats.refinements ≤ b.maxRefinements
  coarsenings : 0 < b.maxCoarsenings → stats.coarsenings ≤ b.maxCoarsenings

theorem Budget.Covers.refine {b : Budget} {stats : Stats} (h : b.Covers stats)
    (can : b.canRefine stats.refinements = true) :
    b.Covers { stats with refinements := stats.refinements + 1 } where
  refinements limited :=
    (of_decide_eq_true can).resolve_left limited.ne'
  coarsenings := h.coarsenings

theorem Budget.Covers.coarsen {b : Budget} {stats : Stats} (h : b.Covers stats)
    (can : b.canCoarsen stats.coarsenings = true) :
    b.Covers { stats with coarsenings := stats.coarsenings + 1 } where
  refinements := h.refinements
  coarsenings limited := (of_decide_eq_true can).resolve_left limited.ne'

variable [Element E]

/-- A change that the limits on the level permit. -/
inductive Permitted (limits : Limits) : Transition E → Prop
  | refine {e : E} {cs : List E} {l : Nat} : level e = .ok l →
      l < limits.effectiveMaxLevel E → children e = .ok cs → Permitted limits ⟨.refine, e, cs, [e]⟩
  | coarsen {q : E} {family : List E} {l : Nat} : level q = .ok l → limits.minLevel ≤ l →
      children q = .ok family → Permitted limits ⟨.coarsen, q, [q], family⟩

/-- One of the groups has put `d` among the leaves, by refining or by coarsening, on a level
that the limits permit. -/
def Produced (limits : Limits) (groups : List (Transition E)) (d : E) : Prop :=
  ∃ g ∈ groups, d ∈ g.added ∧ ∃ l, level d = .ok l ∧
    (g.kind = .refine ∧ l ≤ limits.effectiveMaxLevel E ∨ g.kind = .coarsen ∧ limits.minLevel ≤ l)

theorem Permitted.produced {limits : Limits} {groups : List (Transition E)} {g : Transition E}
    {d : E} (h : Permitted limits g) (hg : g ∈ groups) (hd : d ∈ g.added) :
    Produced limits groups d := by
  cases h with
  | refine hl coarse hcs =>
      obtain ⟨l', hl', level⟩ := level_of_mem_children hcs hd
      cases hl.symm.trans hl'
      exact ⟨_, hg, hd, _, level, .inl ⟨rfl, coarse⟩⟩
  | coarsen hl coarse _ =>
      refine ⟨_, hg, hd, _, ?_, .inr ⟨rfl, coarse⟩⟩
      rwa [List.mem_singleton.mp hd]

section

variable {limits : Limits} {policy : Policy Client E} {s t : Stage Client E}

theorem Move.covers (h : Move limits policy s t) (hs : limits.budget.Covers s.progress.stats) :
    limits.budget.Covers t.progress.stats := by
  cases h with
  | keep _ asked | refuse _ _ asked =>
      rw [Progress.stats_keep, (of_ask asked).2.2.2]
      exact ⟨hs.refinements, hs.coarsenings⟩
  | split _ asked may => exact ((of_ask asked).2.2.2 ▸ hs).refine may.2
  | merge _ _ asked may => exact ((of_ask asked).2.2.2 ▸ hs).coarsen may.2
  | place => exact hs
  | settle _ _ asked =>
      rw [Progress.stats_emit, (of_ask asked).2.2.2]
      exact hs
  | descend _ may asked =>
      rw [Progress.stats_split, (of_ask asked).2.2.2]
      exact hs.refine may.2

theorem Move.permitted (h : Move limits policy s t)
    (hs : ∀ g ∈ s.progress.groups.toList, Permitted limits g) :
    ∀ g ∈ t.progress.groups.toList, Permitted limits g := by
  cases h with
  | keep _ asked | refuse _ _ asked =>
      rw [Progress.groups_keep, (of_ask asked).2.2.1]
      exact hs
  | split _ asked may hcs =>
      obtain ⟨l, hl, coarse⟩ := may.exists_level
      rw [Progress.groups_split, (of_ask asked).2.2.1, Array.toList_push]
      exact List.forall_mem_append.mpr
        ⟨hs, List.forall_mem_singleton.mpr (.refine hl coarse hcs)⟩
  | merge hq hf asked may =>
      obtain ⟨l, hl, hfirst⟩ := level_of_mem_children hf List.mem_cons_self
      obtain ⟨l', hl', coarse⟩ := may.exists_level
      cases hfirst.symm.trans hl'
      rw [Progress.groups_merge, (of_ask asked).2.2.1, Array.toList_push]
      exact List.forall_mem_append.mpr
        ⟨hs, List.forall_mem_singleton.mpr (.coarsen hl (Nat.le_of_lt_succ coarse) hf)⟩
  | place => exact hs
  | settle _ _ asked =>
      rw [Progress.groups_emit, (of_ask asked).2.2.1]
      exact hs
  | descend _ may asked hcs =>
      obtain ⟨l, hl, coarse⟩ := may.exists_level
      rw [Progress.groups_split, (of_ask asked).2.2.1, Array.toList_push]
      exact List.forall_mem_append.mpr
        ⟨hs, List.forall_mem_singleton.mpr (.refine hl coarse hcs)⟩

theorem Edit.mem {g : Transition E} {xs ys : List E} (h : Edit g xs ys) {d : E} (hd : d ∈ ys) :
    d ∈ xs ∨ d ∈ g.added := by
  cases h with
  | split | merge =>
      simp only [List.mem_append] at hd ⊢
      tauto

/-- What a pass finds and what it has put in between two moves. -/
structure Booked (limits : Limits) (leaves : List E) (s : Stage Client E) : Prop where
  covers : limits.budget.Covers s.progress.stats
  permitted : ∀ g ∈ s.progress.groups.toList, Permitted limits g
  source : ∀ d ∈ s.elements, d ∈ leaves ∨ ∃ g ∈ s.progress.groups.toList, d ∈ g.added

theorem Move.booked {leaves : List E} (h : Move limits policy s t) (hs : Booked limits leaves s) :
    Booked limits leaves t := by
  refine ⟨h.covers hs.covers, h.permitted hs.permitted, ?_⟩
  intro d hd
  rcases h.edits with ⟨same, groups, _⟩ | ⟨g, edit, groups, _⟩
  · rw [groups]
    exact hs.source d (same ▸ hd)
  · rw [groups, Array.toList_push]
    rcases edit.mem hd with old | new
    · obtain given | ⟨g', hg', added⟩ := hs.source d old
      · exact .inl given
      · exact .inr ⟨g', List.mem_append_left _ hg', added⟩
    · exact .inr ⟨g, List.mem_append_right _ List.mem_cons_self, new⟩

theorem booked_of_moves {leaves : List E} (h : Moves limits policy s t)
    (hs : Booked limits leaves s) : Booked limits leaves t :=
  invariant_of_moves Move.booked h hs

end

/-! ## What is found again -/

theorem Spread.eq_of_below {xs : List E} (h : Spread xs) {a b : E} (ha : a ∈ xs) (hb : b ∈ xs)
    (below : Below a b) : a = b := by
  have symm : Std.Symm (Apart (E := E)) := ⟨fun _ _ => Apart.symm⟩
  by_contra differ
  exact (h.apart.forall ha hb differ).1 below

/-- Where something below a child is a leaf, its parent is none. -/
theorem Spread.not_mem_of_children {xs cs : List E} (h : Spread xs) {e c d : E}
    (hcs : children e = .ok cs) (hc : c ∈ cs) (hd : d ∈ xs) (below : Below c d) : e ∉ xs := by
  intro he
  obtain rfl := h.eq_of_below he hd ((below_of_mem_children hcs hc).trans below)
  obtain ⟨l, hl, level⟩ := level_of_mem_children hcs hc
  have := below.level_le level hl
  omega

section

variable {limits : Limits} {policy : Policy Client E} {s : Stage Client E} {p : Progress Client E}

/-- What has been placed stays. -/
theorem mem_leaves_of_moves {t : Stage Client E} (h : Moves limits policy s t) {e : E}
    (he : e ∈ s.progress.leaves.toList) : e ∈ t.progress.leaves.toList := by
  induction h with
  | refl => exact he
  | tail _ move ih =>
      cases move with
      | keep _ asked | refuse _ _ asked | settle _ _ asked | split _ asked | merge _ _ asked =>
          simp [(of_ask asked).2.1, ih]
      | place => simp [ih]
      | descend _ _ asked => simp [(of_ask asked).2.1, ih]

/-- A pending element ends up among the leaves, or something below it does. -/
theorem exists_below_of_pending (h : Moves limits policy s ⟨[], [], p⟩) {e : E}
    (he : e ∈ s.pending) : ∃ d ∈ p.leaves.toList, Below e d := by
  induction h using Relation.ReflTransGen.head_induction_on generalizing e with
  | refl => exact absurd he List.not_mem_nil
  | head move moves ih =>
      cases move with
      | keep | split | refuse | merge => exact absurd he List.not_mem_nil
      | place | settle =>
          rcases List.mem_cons.mp he with rfl | he
          · exact ⟨e, mem_leaves_of_moves moves (by simp), .refl e⟩
          · exact ih he
      | descend _ _ _ hcs =>
          rcases List.mem_cons.mp he with rfl | he
          · obtain ⟨c, hc⟩ := List.exists_mem_of_ne_nil _ (children_ne_nil hcs)
            obtain ⟨d, hd, below⟩ := ih (List.mem_append_left _ hc)
            exact ⟨d, hd, (below_of_mem_children hcs hc).trans below⟩
          · exact ih (List.mem_append_right _ he)

theorem not_mem_of_split (h : Moves limits policy s ⟨[], [], p⟩) (spread : Spread p.leaves.toList)
    {e : E} (hcs : children e = .ok s.pending) : e ∉ p.leaves.toList := by
  obtain ⟨c, hc⟩ := List.exists_mem_of_ne_nil _ (children_ne_nil hcs)
  obtain ⟨d, hd, below⟩ := exists_below_of_pending h hc
  exact spread.not_mem_of_children hcs hc hd below

theorem not_mem_of_merge (h : Moves limits policy s ⟨[], [], p⟩) (spread : Spread p.leaves.toList)
    {q : E} {family : List E} (hf : children q = .ok family)
    (hq : q ∈ s.progress.leaves.toList) : ∀ e ∈ family, e ∉ p.leaves.toList := fun e he found =>
  spread.not_mem_of_children hf he found (.refl e) (mem_leaves_of_moves h hq)

/-- The leaves still to come that are found in the new array are those that will be kept. -/
theorem kept_of_moves [DecidableEq E] (h : Moves limits policy s ⟨[], [], p⟩)
    (spread : Spread p.leaves.toList) :
    p.stats.kept = s.progress.stats.kept + s.remaining.countP (· ∈ p.leaves.toList) := by
  induction h using Relation.ReflTransGen.head_induction_on with
  | refl => rfl
  | head move moves ih =>
      cases move with
      | @keep e rest _ _ _ _ _ asked =>
          have there : e ∈ p.leaves.toList := mem_leaves_of_moves moves (by simp)
          rw [ih, Progress.stats_keep, (of_ask asked).2.2.2,
            List.countP_cons_of_pos (by simpa using there)]
          exact Nat.add_right_comm _ _ _
      | split _ asked _ hcs =>
          have gone := not_mem_of_split moves spread hcs
          rw [ih, Progress.stats_split, (of_ask asked).2.2.2,
            List.countP_cons_of_neg (by simpa using gone)]
      | @refuse _ first siblings _ _ _ _ _ asked =>
          have there : ∀ e ∈ first :: siblings, e ∈ p.leaves.toList := fun e he =>
            mem_leaves_of_moves moves (by simp [List.mem_cons.mp he])
          have all : (first :: siblings).countP (· ∈ p.leaves.toList) =
              (first :: siblings).length :=
            List.countP_eq_length.mpr fun e he => decide_eq_true (there e he)
          rw [ih, Progress.stats_keep, (of_ask asked).2.2.2, List.countP_append, all]
          exact Nat.add_assoc _ _ _
      | @merge _ first siblings _ _ _ _ hf asked =>
          have gone := not_mem_of_merge moves spread hf (by simp)
          have none : (first :: siblings).countP (· ∈ p.leaves.toList) = 0 :=
            List.countP_eq_zero.mpr fun e he => by simpa using gone e he
          rw [ih, Progress.stats_merge, (of_ask asked).2.2.2, List.countP_append, none,
            Nat.zero_add]
      | place => exact ih
      | settle _ _ asked => rw [ih, Progress.stats_emit, (of_ask asked).2.2.2]
      | descend _ _ asked => rw [ih, Progress.stats_split, (of_ask asked).2.2.2]

/-- If all the leaves still to come are found again then nothing is changed any more. -/
theorem transitions_of_moves (h : Moves limits policy s ⟨[], [], p⟩)
    (spread : Spread p.leaves.toList) (nothing : s.pending = [])
    (all : ∀ e ∈ s.remaining, e ∈ p.leaves.toList) :
    p.stats.transitions = s.progress.stats.transitions := by
  induction h using Relation.ReflTransGen.head_induction_on with
  | refl => rfl
  | head move moves ih =>
      cases move with
      | keep _ asked =>
          rw [ih rfl (List.forall_mem_cons.mp all).2, Stats.transitions, Progress.stats_keep,
            (of_ask asked).2.2.2]
          rfl
      | split _ _ _ hcs =>
          exact absurd (all _ List.mem_cons_self) (not_mem_of_split moves spread hcs)
      | refuse _ _ asked =>
          rw [ih rfl (List.forall_mem_append.mp all).2, Stats.transitions, Progress.stats_keep,
            (of_ask asked).2.2.2]
          rfl
      | merge _ hf =>
          exact absurd (all _ List.mem_cons_self)
            (not_mem_of_merge moves spread hf (by simp) _ List.mem_cons_self)
      | place | settle | descend => cases nothing

end

/-! ## Passes -/

/-- Whatever a policy answers, the counts of a pass over separate leaves are those that its two
arrays show.  They keep within the budget, and every new leaf comes from a change within the
limits. -/
theorem pass_keeps_accounts (s : Shape) {leaves : Leaves s.Carrier}
    (valid : ∀ e ∈ leaves.toList, Valid e) (separate : Separate leaves) (limits : Limits)
    {policy : Policy Client s.Carrier} {client : Client}
    (h : Cooperates limits policy client leaves) :
    ∃ out, adapt limits policy client leaves = .ok out ∧
      out.leaves.size + (s.numChildren - 1) * out.stats.coarsenings =
        leaves.size + (s.numChildren - 1) * out.stats.refinements ∧
      out.stats.kept = (leaves.toList.filter (· ∈ out.leaves.toList)).length ∧
      limits.budget.Covers out.stats ∧
      (∀ d ∈ out.leaves.toList, d ∉ leaves.toList → Produced limits out.groups d) ∧
      (out.stats.isUnchanged = true ↔ out.leaves = leaves) := by
  have spread : Spread leaves.toList := ⟨valid, (separate_iff valid).mp separate⟩
  obtain ⟨out, ran, _⟩ := exists_adapt h valid spread.apart
  obtain ⟨p, moves, new, stats, groups⟩ := exists_moves valid ran
  obtain ⟨spread', script, _, replayed, count⟩ :=
    exists_script_of_moves moves (by simpa [Stage.elements] using spread)
  simp only [Stage.elements, List.append_nil] at spread'
  have start : Booked limits leaves.toList ⟨[], leaves.toList, .start client⟩ :=
    ⟨⟨fun _ => Nat.zero_le _, fun _ => Nat.zero_le _⟩,
      fun _ hg => absurd hg (by simp [Progress.start]),
      fun d hd => .inl (by simpa [Stage.elements] using hd)⟩
  have booked := booked_of_moves moves start
  refine ⟨out, ran, ?_, ?_, stats ▸ booked.covers, ?_, ?_⟩
  · rw [← branching_carrier]
    exact size_of_adapt valid ran
  · rw [stats, new, kept_of_moves moves spread', List.countP_eq_length_filter]
    exact Nat.zero_add _
  · intro d hd fresh
    rw [new] at hd
    rw [groups]
    obtain ⟨g, hg, added⟩ :=
      (booked.source d (by simpa [Stage.elements] using hd)).resolve_left fresh
    exact (booked.permitted g hg).produced hg added
  · rw [Stats.isUnchanged, decide_eq_true_iff, stats]
    constructor
    · intro none
      rw [none] at count
      have empty : script.length = 0 := (Nat.eq_zero_of_add_eq_zero count.symm).2
      obtain rfl := List.length_eq_zero_iff.mp empty
      have same := Option.some.inj replayed
      simp only [Stage.elements, List.append_nil] at same
      exact congrArg Leaves.mk (new.trans same.symm)
    · intro same
      have all : ∀ e ∈ leaves.toList, e ∈ p.leaves.toList := by
        rw [← new, same]
        exact fun e he => he
      exact transitions_of_moves moves spread' rfl all

/-- The family is merged, and the leaf behind it refined twice: then the budget is spent. -/
theorem pass_keeps_accounts_quad :
    (∀ e ∈ mixedQuads.toList, Valid e) ∧ Separate mixedQuads ∧
      Cooperates ⟨1, 3, true, ⟨2, 1⟩⟩ (seesaw Quad) 0 mixedQuads ∧
      ∃ out, adapt ⟨1, 3, true, ⟨2, 1⟩⟩ (seesaw Quad) 0 mixedQuads = .ok out ∧
        out.leaves.size + 3 * out.stats.coarsenings = 5 + 3 * out.stats.refinements ∧
        out.stats.kept = (mixedQuads.toList.filter (· ∈ out.leaves.toList)).length ∧
        out.stats.refinements ≤ 2 ∧ out.stats.coarsenings ≤ 1 ∧
        (∀ d ∈ out.leaves.toList, d ∉ mixedQuads.toList →
          Produced ⟨1, 3, true, ⟨2, 1⟩⟩ out.groups d) ∧
        (out.stats.isUnchanged = true ↔ out.leaves = mixedQuads) := by
  have valid : ∀ e ∈ mixedQuads.toList, Valid e := by decide
  have cooperates := (seesaw_willing Valid).cooperates hereditary_valid ⟨1, 3, true, ⟨2, 1⟩⟩ 0 valid
  obtain ⟨out, ran, size, kept, covers, produced, unchanged⟩ :=
    pass_keeps_accounts .quad valid separate_mixedQuads ⟨1, 3, true, ⟨2, 1⟩⟩ cooperates
  exact ⟨valid, separate_mixedQuads, cooperates, out, ran, size, kept,
    covers.refinements Nat.two_pos, covers.coarsenings Nat.one_pos, produced, unchanged⟩

end MeshCurve.Adapt
