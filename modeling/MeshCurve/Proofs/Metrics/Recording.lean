import MeshCurve.Proofs.Adapt.Undo
import MeshCurve.Proofs.Metrics
import MeshCurve.Proofs.Metrics.Window
import Mathlib.Algebra.BigOperators.Group.Finset.Basic

/-!
# The metrics of a run

Passes are recorded one after the other, each on the leaves that the one before it has left,
and the metrics are reset at any time.  What is replaced by every record, the counts of the
levels, is a function of the last leaves; what accumulates follows the balance of the passes;
and the timings are a window over the passes since the last reset.
-/

namespace MeshCurve

open Element Leaves Adapt

/-! ## The counts of the levels -/

section

variable {ls : List Nat} {n : Nat}

theorem sum_map_count_range (small : ∀ l ∈ ls, l < n) :
    ((List.range n).map ls.count).sum = ls.length := by
  have all : ∀ l ∈ (ls : Multiset Nat), l ∈ (List.range n).toFinset := fun l hl =>
    List.mem_toFinset.mpr (List.mem_range.mpr (small l hl))
  rw [← List.sum_toFinset _ List.nodup_range]
  simpa only [Multiset.coe_count, Multiset.coe_card] using Multiset.sum_count_eq_card all

/-- The last level that is counted is the greatest one. -/
theorem getLast?_filter_count_range (small : ∀ l ∈ ls, l < n) :
    ((List.range n).filter fun l => 0 < ls.count l).getLast? = ls.max? := by
  have counted : ∀ l, l ∈ (List.range n).filter (fun l => 0 < ls.count l) ↔ l ∈ ls := by
    intro l
    rw [List.mem_filter, List.mem_range, decide_eq_true_iff, List.count_pos_iff]
    exact ⟨And.right, fun hl => ⟨small l hl, hl⟩⟩
  cases top : ((List.range n).filter fun l => 0 < ls.count l).getLast? with
  | none =>
      rw [List.getLast?_eq_none_iff] at top
      symm
      rw [List.max?_eq_none_iff, List.eq_nil_iff_forall_not_mem]
      intro l hl
      exact List.not_mem_nil (top ▸ (counted l).mpr hl)
  | some f =>
      obtain ⟨before, split⟩ := List.getLast?_eq_some_iff.mp top
      have increasing : ((List.range n).filter fun l => 0 < ls.count l).Pairwise (· < ·) :=
        List.pairwise_lt_range.filter _
      rw [split] at increasing counted
      symm
      refine List.max?_eq_some_iff.mpr ⟨(counted f).mp (by simp), ?_⟩
      intro l hl
      rcases List.mem_append.mp ((counted l).mpr hl) with earlier | last
      · exact ((List.pairwise_append.mp increasing).2.2 l earlier f List.mem_cons_self).le
      · exact (List.mem_singleton.mp last).le

end

variable {E : Type} [Element E]

namespace Metrics

variable {m m' : Metrics} {leaves : Leaves E}

/-- The metrics count the given leaves. -/
structure Counts (m : Metrics) (leaves : Leaves E) : Prop where
  total : m.totalLeaves = leaves.size
  finest : leaves.maxLevel? = .ok m.finestLevel?

theorem counts_of_countPerLevel (h : leaves.countPerLevel = .ok m.leavesPerLevel) :
    m.Counts leaves := by
  obtain ⟨ls, hls, small, counts⟩ := countPerLevel_eq_ok_iff.mp h
  constructor
  · rw [totalLeaves, ← List.sum_eq_foldl, ← counts, sum_map_count_range small, size,
      length_of_mapM_eq_ok hls]
  · have same : m.finestLevel? = ls.max? := by
      rw [← getLast?_filter_count_range small, finestLevel?, ← counts, List.length_map,
        List.length_range]
      refine congrArg List.getLast? (List.filter_congr fun l hl => ?_)
      rw [List.getD_eq_getElem?_getD, List.getElem?_map, List.getElem?_range (List.mem_range.mp hl)]
      rfl
    rw [maxLevel?, hls, ok_bind, same, pure_eq_ok]

/-- A reset forgets the leaves and the timings, and keeps the totals. -/
structure ResetOf (m' m : Metrics) : Prop where
  levels : ∀ n ∈ m'.leavesPerLevel, n = 0
  leaves : m'.totalLeaves = 0
  finest : m'.finestLevel? = none
  timings : m'.timings.items = []
  refinements : m'.totalRefinements = m.totalRefinements
  coarsenings : m'.totalCoarsenings = m.totalCoarsenings
  passes : m'.passes = m.passes

theorem resetOf_reset (m : Metrics) : m.reset.ResetOf m where
  levels _ hn := List.eq_of_mem_replicate hn
  leaves := by rfl
  finest := by rfl
  timings := rfl
  refinements := rfl
  coarsenings := rfl
  passes := rfl

/-! ## Runs -/

/-- What holds all along a run, after a reset as well. -/
structure Follows (first now : Leaves E) (m : Metrics) (passes fresh : Nat) : Prop where
  spread : Spread now.toList
  inRoot : ∀ e ∈ now.toList, InRoot e
  collecting : m.collecting = true
  passes : m.passes = passes
  timings : m.timings.capacity = Window.defaultCapacity ∧
    ∃ values, m.timings.Keeps values ∧ values.length = fresh
  balance : now.size + (branching E - 1) * m.totalCoarsenings =
    first.size + (branching E - 1) * m.totalRefinements

variable {first now : Leaves E} {passes fresh : Nat}

theorem Follows.timings_size (h : Follows first now m passes fresh) :
    m.timings.size = min Window.defaultCapacity fresh := by
  obtain ⟨capacity, values, keeps, count⟩ := h.timings
  rw [keeps.size_eq, capacity, count]
  rfl

theorem follows_start (spread : Spread first.toList) (inRoot : ∀ e ∈ first.toList, InRoot e) :
    Follows first first .initial 0 0 where
  spread := spread
  inRoot := inRoot
  collecting := rfl
  passes := rfl
  timings := ⟨rfl, [], Window.keeps_nil rfl, rfl⟩
  balance := rfl

theorem Follows.reset (h : Follows first now m passes fresh) :
    Follows first now m.reset passes 0 where
  spread := h.spread
  inRoot := h.inRoot
  collecting := h.collecting
  passes := h.passes
  timings := ⟨h.timings.1, [], Window.keeps_nil rfl, rfl⟩
  balance := h.balance

variable [DecidableEq E]

/-- What there is after some of the passes of a run over `first`: the leaves, the metrics, and
how many passes were recorded, in all and since the last reset.  A pass in which a single leaf
is to be coarsened does not finish. -/
inductive Recorded (first : Leaves E) : Leaves E → Metrics → Nat → Nat → Prop
  | start : Recorded first first .initial 0 0
  | pass {Client : Type} {now : Leaves E} {m m' : Metrics} {passes fresh microseconds : Nat}
      {limits : Limits} {policy : Policy Client E} {client : Client} {out : Outcome Client E} :
      Recorded first now m passes fresh → adapt limits policy client now = .ok out →
      m.recordPass out.leaves out.stats (some microseconds) = .ok m' →
      Recorded first out.leaves m' (passes + 1) (fresh + 1)
  | reset {now : Leaves E} {m : Metrics} {passes fresh : Nat} :
      Recorded first now m passes fresh → Recorded first now m.reset passes 0

section

variable [LawfulNumbering E] {Client : Type} {limits : Limits} {policy : Policy Client E}
  {client : Client} {out : Outcome Client E}

theorem Follows.recordPass_eq_ok_iff (h : Follows first now m passes fresh)
    (ran : adapt limits policy client now = .ok out) (microseconds : Nat) :
    ∃ counts, out.leaves.countPerLevel = .ok counts ∧
      ∀ m', m.recordPass out.leaves out.stats (some microseconds) = .ok m' ↔
        m.HasRoom out.stats ∧ m' = (m.tally counts out.stats).recordTiming microseconds := by
  obtain ⟨ls, _, counted⟩ := exists_countPerLevel (inRoot_of_adapt h.inRoot ran)
  exact ⟨_, counted, fun m' => Metrics.recordPass_eq_ok_iff h.collecting counted⟩

theorem Follows.pass (h : Follows first now m passes fresh)
    (ran : adapt limits policy client now = .ok out) {microseconds : Nat}
    (recorded : m.recordPass out.leaves out.stats (some microseconds) = .ok m') :
    Follows first out.leaves m' (passes + 1) (fresh + 1) ∧ m'.Counts out.leaves := by
  obtain ⟨counts, counted, iff⟩ := h.recordPass_eq_ok_iff ran microseconds
  obtain ⟨_, rfl⟩ := (iff m').mp recorded
  obtain ⟨capacity, values, keeps, count⟩ := h.timings
  have on : (m.tally counts out.stats).collecting = true := h.collecting
  rw [recordTiming, if_pos on]
  have size := size_of_adapt h.spread.valid ran
  refine ⟨⟨spread_of_adapt h.spread ran, inRoot_of_adapt h.inRoot ran, on, ?_, ?_, ?_⟩,
    counts_of_countPerLevel counted⟩
  · exact congrArg (· + 1) h.passes
  · refine ⟨capacity, values ++ [microseconds], keeps.push microseconds, ?_⟩
    rw [List.length_append, count, List.length_singleton]
  · have balance := h.balance
    simp only [tally, Nat.mul_add]
    omega

theorem follows_of_recorded (spread : Spread first.toList) (inRoot : ∀ e ∈ first.toList, InRoot e)
    (h : Recorded first now m passes fresh) : Follows first now m passes fresh := by
  induction h with
  | start => exact follows_start spread inRoot
  | pass _ ran recorded ih => exact (ih.pass ran recorded).1
  | reset _ ih => exact ih.reset

end

/-- What the metrics say right after a pass. -/
structure Reports (first now : Leaves E) (m : Metrics) (passes fresh : Nat) : Prop where
  passes : m.passes = passes
  counts : m.Counts now
  timings : m.timings.size = min 128 fresh
  balance : now.size + (branching E - 1) * m.totalCoarsenings =
    first.size + (branching E - 1) * m.totalRefinements

/-- Along any run over separate leaves in the root, a pass has a result unless its policy does
not cooperate, and is recorded unless a counter leaves its word; the metrics then say how many
passes there were, what the leaves are now, and how they follow from the first ones.  A reset
clears the counts and the timings, and no total. -/
theorem metrics_follow_run (s : Shape) {first now : Leaves s.Carrier}
    (inRoot : ∀ e ∈ first.toList, InRoot e) (separate : Separate first) {m : Metrics}
    {passes fresh : Nat} (h : Recorded first now m passes fresh) :
    (∀ {Client : Type} (limits : Limits) (policy : Policy Client s.Carrier) (client : Client),
      (Cooperates limits policy client now →
        ∃ out, adapt limits policy client now = .ok out) ∧
      ∀ out, adapt limits policy client now = .ok out → ∀ microseconds,
        ((∃ m', m.recordPass out.leaves out.stats (some microseconds) = .ok m') ↔
          m.HasRoom out.stats) ∧
        ∀ m', m.recordPass out.leaves out.stats (some microseconds) = .ok m' →
          Reports first out.leaves m' (passes + 1) (fresh + 1)) ∧
    m.reset.ResetOf m := by
  have valid : ∀ e ∈ first.toList, Valid e := fun e he => (inRoot e he).1
  have follows := follows_of_recorded ⟨valid, (separate_iff valid).mp separate⟩ inRoot h
  refine ⟨?_, resetOf_reset m⟩
  intro Client limits policy client
  constructor
  · intro cooperates
    obtain ⟨out, ran, _⟩ :=
      exists_adapt cooperates follows.spread.valid follows.spread.apart
    exact ⟨out, ran⟩
  · intro out ran microseconds
    obtain ⟨counts, _, iff⟩ := follows.recordPass_eq_ok_iff ran microseconds
    constructor
    · constructor
      · rintro ⟨m', recorded⟩
        exact ((iff m').mp recorded).1
      · intro room
        exact ⟨_, (iff _).mpr ⟨room, rfl⟩⟩
    · intro m' recorded
      obtain ⟨later, counts⟩ := follows.pass ran recorded
      exact ⟨later.passes, counts, later.timings_size, later.balance⟩

/-- What recursive refinement makes of the second child of the root, and the first child. -/
def eightQuads : Leaves Quad :=
  ⟨[⟨0x20000000, 0, 3⟩, ⟨0x28000000, 0, 3⟩, ⟨0x20000000, 0x8000000, 3⟩,
    ⟨0x28000000, 0x8000000, 3⟩, ⟨0x30000000, 0, 2⟩, ⟨0x20000000, 0x10000000, 2⟩,
    ⟨0x30000000, 0x10000000, 2⟩, ⟨0, 0, 1⟩]⟩

/-- A leaf is refined twice and the family behind it merged; then the metrics are reset, and
what was refined last is merged again. -/
theorem metrics_follow_run_quad :
    (∀ e ∈ fiveQuads.toList, InRoot e) ∧ Separate fiveQuads ∧
      Cooperates ⟨0, 3, true, ⟨2, 0⟩⟩ (seesaw Quad) 0 fiveQuads ∧
      ∃ out m' again m'',
        adapt ⟨0, 3, true, ⟨2, 0⟩⟩ (seesaw Quad) 0 fiveQuads = .ok out ∧ out.stats = ⟨2, 1, 0⟩ ∧
        Metrics.initial.recordPass out.leaves out.stats (some 7) = .ok m' ∧
        Reports fiveQuads out.leaves m' 1 1 ∧ Recorded fiveQuads out.leaves m'.reset 1 0 ∧
        adapt .unbounded (gather Quad) () out.leaves = .ok again ∧ again.stats = ⟨0, 1, 4⟩ ∧
        m'.reset.recordPass again.leaves again.stats (some 9) = .ok m'' ∧
        Reports fiveQuads again.leaves m'' 2 1 := by
  have inRoot : ∀ e ∈ fiveQuads.toList, InRoot e := by
    unfold InRoot
    decide
  have separate : Separate fiveQuads := by
    unfold Separate
    decide
  have cooperates := (seesaw_willing InRoot).cooperates hereditary_inRoot
    ⟨0, 3, true, ⟨2, 0⟩⟩ 0 inRoot
  obtain ⟨passes, _⟩ := metrics_follow_run .quad inRoot separate .start
  obtain ⟨finishes, records⟩ := passes ⟨0, 3, true, ⟨2, 0⟩⟩ (seesaw Quad) 0
  obtain ⟨out, ran⟩ := finishes cooperates
  have result : (adapt ⟨0, 3, true, ⟨2, 0⟩⟩ (seesaw Quad) 0 fiveQuads).map
      (fun out => (out.leaves, out.stats)) = .ok (eightQuads, ⟨2, 1, 0⟩) := by cbv
  rw [ran] at result
  obtain ⟨leaves, stats⟩ := Prod.mk.inj (Except.ok.inj result)
  obtain ⟨recorded_iff, reports⟩ := records out ran 7
  obtain ⟨m', recorded⟩ := recorded_iff.mpr (by rw [stats]; constructor <;> decide)
  have totals : (Metrics.initial.recordPass eightQuads ⟨2, 1, 0⟩ (some 7)).map
      (fun m => (m.totalRefinements, m.totalCoarsenings, m.passes)) = .ok (2, 1, 1) := by cbv
  rw [← leaves, ← stats, recorded] at totals
  obtain ⟨refinements, rest⟩ := Prod.mk.inj (Except.ok.inj totals)
  obtain ⟨coarsenings, count⟩ := Prod.mk.inj rest
  have after : Recorded fiveQuads out.leaves m'.reset 1 0 := .reset (.pass .start ran recorded)
  obtain ⟨passes', _⟩ := metrics_follow_run .quad inRoot separate after
  obtain ⟨finishes', records'⟩ := passes' .unbounded (gather Quad) ()
  have cooperates' := (gather_willing InRoot).cooperates hereditary_inRoot .unbounded ()
    (inRoot_of_adapt inRoot ran)
  obtain ⟨again, ran'⟩ := finishes' cooperates'
  have result' : (adapt .unbounded (gather Quad) () eightQuads).map
      (fun out => out.stats) = .ok ⟨0, 1, 4⟩ := by cbv
  rw [← leaves, ran'] at result'
  have stats' : again.stats = ⟨0, 1, 4⟩ := Except.ok.inj result'
  obtain ⟨recorded_iff', reports'⟩ := records' again ran' 9
  have room : m'.reset.HasRoom again.stats := by
    rw [stats']
    constructor <;> simp only [Metrics.reset, refinements, coarsenings, count] <;> decide
  obtain ⟨m'', recorded'⟩ := recorded_iff'.mpr room
  exact ⟨inRoot, separate, cooperates, out, m', again, m'', ran, stats, recorded,
    reports m' recorded, after, ran', stats', recorded', reports' m'' recorded'⟩

end Metrics

end MeshCurve
