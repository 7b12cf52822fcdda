import MeshCurve.Proofs.Adapt.Undo
import MeshCurve.Proofs.Leaves.Complete

/-!
# Coarsening makes progress

A sweep that merges every family it is offered takes one level off a complete array.  A leaf
of the finest level that starts where its parent does is followed by all its siblings, since
whatever starts strictly inside the parent is of the finest level as well.  And a sweep only
ever stands where an element of the next coarser level could start: so does what comes after
a merged family, after one that has to stay, and after a coarser leaf.
-/

namespace MeshCurve.Leaves

open Element

variable {E : Type} [Element E]

/-! ## Starts and ends -/

theorem span_dvd_span {l m : Nat} (h : l ≤ m) : span E m ∣ span E l :=
  pow_dvd_pow _ (Nat.sub_le_sub_left h _)

theorem span_dvd_mul_iff {m q : Nat} (h : m + 1 ≤ finest E) :
    span E m ∣ q * span E (m + 1) ↔ branching E ∣ q := by
  rw [← pow_mul_span h, pow_one]
  exact Nat.mul_dvd_mul_iff_right (span_pos (m + 1))

section

variable [LawfulNumbering E]

/-- A leaf starts and ends where elements of a finer level do. -/
theorem span_dvd_of_extent {e : E} {lo hi l m : Nat} (he : Extent e lo hi)
    (hl : level e = .ok l) (h : l ≤ m) : span E m ∣ lo ∧ span E m ∣ hi := by
  obtain ⟨k, i, down, rfl, rfl⟩ := he
  cases hl.symm.trans down.level_of_root
  exact ⟨(span_dvd_span h).mul_left _, (span_dvd_span h).mul_left _⟩

/-- Elements of one level none of which starts where a coarser one could are all among the
leaves, if there are no finer ones. -/
theorem Tiled.exists_append {m q hi : Nat} {xs es : List E} (h : Tiled (q * span E (m + 1)) hi xs)
    (fine : ∀ x ∈ xs, ∃ l ≤ m + 1, level x = .ok l) (run : Consecutive (m + 1) q es)
    (room : (q + es.length) * span E (m + 1) ≤ hi)
    (inner : ∀ k < es.length, ¬ branching E ∣ q + k) : ∃ more, xs = es ++ more := by
  induction es generalizing q xs with
  | nil => exact ⟨xs, rfl⟩
  | cons e es ih =>
      obtain ⟨first, others⟩ := consecutive_cons_iff.mp run
      generalize start : q * span E (m + 1) = lo at h
      cases h with
      | nil =>
          rw [← start] at room
          have short := Nat.le_of_mul_le_mul_right room (span_pos (E := E) (m + 1))
          rw [List.length_cons] at short
          omega
      | @cons x _ mid _ rest hx h =>
          obtain ⟨⟨l, hle, hl⟩, fine⟩ := List.forall_mem_cons.mp fine
          obtain rfl : l = m + 1 := by
            by_contra differ
            have aligned := (span_dvd_of_extent hx hl (m := m) (by omega)).1
            rw [← start, span_dvd_mul_iff first.le_finest] at aligned
            exact inner 0 (Nat.succ_pos _) aligned
          obtain ⟨k, i, down, rfl, rfl⟩ := hx
          cases hl.symm.trans down.level_of_root
          obtain rfl := Nat.eq_of_mul_eq_mul_right (span_pos (m + 1)) start
          obtain rfl := down.unique first
          rw [List.length_cons, Nat.add_comm es.length, ← Nat.add_assoc] at room
          obtain ⟨more, rfl⟩ := ih h fine others room fun k hk => by
            rw [Nat.add_assoc, Nat.add_comm 1]
            exact inner (k + 1) (Nat.succ_lt_succ hk)
          exact ⟨more, rfl⟩

/-- A leaf of the finest level that starts where its parent does is followed by the other
children of it. -/
theorem Tiled.exists_family {m lo : Nat} {e : E} {rest : List E}
    (h : Tiled lo (branching E ^ finest E) (e :: rest)) (aligned : span E m ∣ lo)
    (hl : level e = .ok (m + 1)) (fine : ∀ x ∈ rest, ∃ l ≤ m + 1, level x = .ok l) :
    ∃ q cs more, Valid q ∧ children q = .ok cs ∧ e :: rest = cs ++ more := by
  obtain ⟨lo', mid, he⟩ := inRoot_iff_extent.mp (h.laid.inRoot e List.mem_cons_self)
  obtain rfl := h.start_eq he
  have later := (tiled_cons_iff he).mp h
  obtain ⟨k, i, down, rfl, rfl⟩ := he
  cases hl.symm.trans down.level_of_root
  obtain ⟨j, rfl⟩ := (span_dvd_mul_iff down.le_finest).mp aligned
  obtain ⟨q, up, step⟩ := descends_succ_iff.mp down
  rw [Nat.mul_div_cancel_left j (branching_pos E)] at up
  rw [Nat.mul_mod_right] at step
  obtain ⟨cs, hcs⟩ := exists_children up.valid_of_root up.level_of_root down.le_finest
  have count : cs.length = branching E := length_children hcs
  have run : Consecutive (m + 1) (branching E * j) cs := by
    intro i hi
    rw [count] at hi
    obtain ⟨c, hc, step⟩ := getElem?_children hcs hi
    exact ⟨c, hc, up.child hi step⟩
  obtain ⟨c, cs, rfl⟩ := List.exists_cons_of_ne_nil (children_ne_nil hcs)
  obtain ⟨first, others⟩ := consecutive_cons_iff.mp run
  obtain rfl := down.unique first
  rw [List.length_cons] at count
  have room : (branching E * j + 1 + cs.length) * span E (m + 1) ≤ branching E ^ finest E := by
    have inside := up.extent.hi_le
    rw [← pow_mul_span down.le_finest, pow_one, ← Nat.mul_assoc] at inside
    rwa [Nat.add_assoc, Nat.add_comm 1, count, ← Nat.mul_succ, Nat.mul_comm (branching E)]
  have inner : ∀ k < cs.length, ¬ branching E ∣ branching E * j + 1 + k := by
    intro k hk divides
    rw [Nat.add_assoc, Nat.dvd_add_right (Nat.dvd_mul_right _ j)] at divides
    have := Nat.le_of_dvd (by omega) divides
    omega
  obtain ⟨more, rfl⟩ := later.exists_append fine others room inner
  exact ⟨q, e :: cs, more, up.valid_of_root, hcs, rfl⟩

end

end MeshCurve.Leaves

namespace MeshCurve.Adapt

open Element Leaves

variable {Client E : Type}

/-! ## Sweeping -/

/-- Answers to merge what is offered as a family, and to keep what is offered alone. -/
structure Gathers (policy : Policy Client E) : Prop where
  family (c : Client) {offered : List E} : 1 < offered.length →
    ∃ c', policy c offered = .ok (.coarsen, c')
  single (c : Client) (e : E) : ∃ c', policy c [e] = .ok (.keep, c')

theorem gather_gathers (E : Type) : Gathers (gather E) where
  family c offered several := ⟨(), by rw [gather, if_pos several]⟩
  single c e := ⟨(), rfl⟩

section

variable {policy : Policy Client E} (gathers : Gathers policy)

include gathers

theorem Gathers.willing (P : E → Prop) : Willing P policy := by
  intro c offered some' _
  obtain ⟨e, rest, rfl⟩ := List.exists_cons_of_ne_nil some'
  cases rest with
  | nil =>
      obtain ⟨c', answer⟩ := gathers.single c e
      exact ⟨.keep, c', answer, nofun⟩
  | cons d rest =>
      have several : 1 < (e :: d :: rest).length := by simp
      obtain ⟨c', answer⟩ := gathers.family c several
      exact ⟨.coarsen, c', answer, fun _ => by simp⟩

theorem Gathers.eq_coarsen {p p₁ : Progress Client E} {offered : List E} {a : Action}
    (several : 1 < offered.length) (h : p.ask policy offered = .ok (a, p₁)) : a = .coarsen := by
  obtain ⟨c', answer⟩ := gathers.family p.client several
  cases (of_ask h).1.symm.trans answer
  rfl

theorem Gathers.eq_keep {p p₁ : Progress Client E} {e : E} {a : Action}
    (h : p.ask policy [e] = .ok (a, p₁)) : a = .keep := by
  obtain ⟨c', answer⟩ := gathers.single p.client e
  cases (of_ask h).1.symm.trans answer
  rfl

theorem Gathers.ne_refine {p p₁ : Progress Client E} {e : E} {rest : List E} {a : Action}
    (h : p.ask policy (e :: rest) = .ok (a, p₁)) : a ≠ .refine := by
  cases rest with
  | nil =>
      rw [gathers.eq_keep h]
      exact Action.noConfusion
  | cons d rest =>
      rw [gathers.eq_coarsen (by simp) h]
      exact Action.noConfusion

end

variable [Element E]

/-- Nothing is pending, what has been placed is at most of level `m`, and what remains is at
most one level finer and starts where an element of level `m` could. -/
structure Lowering (m : Nat) (s : Stage Client E) : Prop where
  nothing : s.pending = []
  aligned : ∃ lo, span E m ∣ lo ∧ Tiled lo (branching E ^ finest E) s.remaining
  fine : ∀ e ∈ s.remaining, ∃ l ≤ m + 1, level e = .ok l
  placed : ∀ e ∈ s.progress.leaves.toList, ∃ l ≤ m, level e = .ok l
  refinements : s.progress.stats.refinements = 0

section

variable [LawfulNumbering E] {policy : Policy Client E} {limits : Limits} {m : Nat}

/-- Behind a family an element could start that is as coarse as its parent. -/
theorem tiled_behind_family {lo hi l : Nat} {q : E} {cs more : List E}
    (h : Tiled lo hi (cs ++ more)) (hq : Valid q) (hcs : children q = .ok cs)
    (hl : level q = .ok l) (coarse : l ≤ m) : ∃ mid, span E m ∣ mid ∧ Tiled mid hi more := by
  have some' := children_ne_nil hcs
  obtain ⟨mid, before, behind⟩ := tiled_append_iff.mp h
  obtain ⟨lo', hi', own⟩ :=
    inRoot_iff_extent.mp (inRoot_of_children hq hcs before.laid.inRoot)
  obtain ⟨rfl, rfl⟩ := before.unique (tiled_children own hcs) some'
  exact ⟨mid, (span_dvd_of_extent own hl coarse).2, behind⟩

theorem Move.lowering {s t : Stage Client E} (gathers : Gathers policy)
    (unlimited : limits.budget.maxCoarsenings = 0) (room : limits.minLevel ≤ m)
    (h : Move limits policy s t) (hs : Lowering m s) : Lowering m t := by
  obtain ⟨nothing, ⟨lo, aligned, tiled⟩, fine, placed, refinements⟩ := hs
  cases h with
  | @keep e rest offered a p p₁ offer asked stays _ =>
      obtain ⟨⟨l, hle, hl⟩, fine⟩ := List.forall_mem_cons.mp fine
      have coarse : l ≤ m := by
        by_contra finer
        obtain rfl : l = m + 1 := by omega
        obtain ⟨q, cs, more, hq, hcs, whole⟩ := tiled.exists_family aligned hl fine
        obtain rfl := offered_family hq hcs whole offer
        exact stays (gathers.eq_coarsen (one_lt_length_children hcs) asked)
      cases tiled with
      | cons he tiled =>
          refine ⟨rfl, ⟨_, (span_dvd_of_extent he hl coarse).2, tiled⟩, fine, ?_, ?_⟩
          · rw [Progress.leaves_keep, (of_ask asked).2.1]
            exact List.forall_mem_append.mpr
              ⟨placed, List.forall_mem_singleton.mpr ⟨l, coarse, hl⟩⟩
          · rw [Progress.stats_keep, (of_ask asked).2.2.2]
            exact refinements
  | split offer asked =>
      obtain ⟨tail, rfl⟩ := offer.exists_tail
      exact absurd rfl (gathers.ne_refine asked)
  | @refuse q first siblings rest p p₁ hq hf asked refused =>
      obtain ⟨family, fine⟩ := List.forall_mem_append.mp fine
      obtain ⟨l, hl, hfirst⟩ := level_of_mem_children hf List.mem_cons_self
      have coarse : l + 1 ≤ m := by
        by_contra finer
        exact refused (mayCoarsen_of_unlimited unlimited hfirst (by omega))
      refine ⟨rfl, tiled_behind_family tiled hq hf hl (by omega), fine, ?_, ?_⟩
      · rw [Progress.leaves_keep, (of_ask asked).2.1]
        refine List.forall_mem_append.mpr ⟨placed, ?_⟩
        intro d hd
        obtain ⟨l', hl', hd⟩ := level_of_mem_children hf hd
        cases hl.symm.trans hl'
        exact ⟨l + 1, coarse, hd⟩
      · rw [Progress.stats_keep, (of_ask asked).2.2.2]
        exact refinements
  | @merge q first siblings rest p p₁ hq hf asked _ =>
      obtain ⟨family, fine⟩ := List.forall_mem_append.mp fine
      obtain ⟨l, hl, hfirst⟩ := level_of_mem_children hf List.mem_cons_self
      obtain ⟨k, hle, hk⟩ := family first List.mem_cons_self
      cases hk.symm.trans hfirst
      have coarse : l ≤ m := by omega
      refine ⟨rfl, tiled_behind_family tiled hq hf hl coarse, fine, ?_, ?_⟩
      · rw [Progress.leaves_merge, (of_ask asked).2.1]
        exact List.forall_mem_append.mpr
          ⟨placed, List.forall_mem_singleton.mpr ⟨l, coarse, hl⟩⟩
      · rw [Progress.stats_merge, (of_ask asked).2.2.2]
        exact refinements
  | place | settle | descend => cases nothing

theorem lowering_of_moves {s t : Stage Client E} (gathers : Gathers policy)
    (unlimited : limits.budget.maxCoarsenings = 0) (room : limits.minLevel ≤ m)
    (h : Moves limits policy s t) (hs : Lowering m s) : Lowering m t :=
  invariant_of_moves (Move.lowering gathers unlimited room) h hs

end

/-! ## Passes -/

/-- A leaf of the finest level has been merged, since nothing finer than its parent is left. -/
theorem exists_merged {m : Nat} {changes : List (Exchange E)} (hc : ∀ x ∈ changes, Change x) {e : E}
    (he : e ∈ outgoing changes) (hl : level e = .ok (m + 1))
    (coarse : ∀ d ∈ incoming changes, ∃ l ≤ m, level d = .ok l) :
    ∃ q ∈ incoming changes, level q = .ok m := by
  obtain ⟨x, hx, he⟩ := List.mem_flatMap.mp he
  have new : ∀ d ∈ x.incoming, d ∈ incoming changes := fun d hd =>
    List.mem_flatMap.mpr ⟨x, hx, hd⟩
  cases hc x hx with
  | carried d =>
      obtain rfl := List.mem_singleton.mp he
      obtain ⟨l, hle, hl'⟩ := coarse e (new e List.mem_cons_self)
      cases hl.symm.trans hl'
      omega
  | @split d cs run hcs cuts =>
      obtain rfl := List.mem_singleton.mp he
      obtain ⟨r, hr⟩ := List.exists_mem_of_length_pos
        ((branching_pos E).trans_le (Cuts.branching_le hcs cuts))
      obtain ⟨l, hle, hl'⟩ := coarse r (new r hr)
      have finer := cuts.level_lt hcs hr hl hl'
      omega
  | @merged q family hq hf =>
      obtain ⟨l, hl', hd⟩ := level_of_mem_children hf he
      cases hl.symm.trans hd
      exact ⟨q, new q List.mem_cons_self, hl'⟩

/-- Leaves that tile the root, down to level `d`. -/
structure CompleteTo (d : Nat) (leaves : Leaves E) : Prop where
  inRoot : ∀ e ∈ leaves.toList, InRoot e
  complete : leaves.isComplete = .ok true
  top : leaves.maxLevel? = .ok (some d)

section

variable [LawfulNumbering E] {leaves : Leaves E} {m d : Nat}

theorem CompleteTo.tiled (h : CompleteTo d leaves) :
    Tiled 0 (branching E ^ finest E) leaves.toList :=
  (isComplete_of_inRoot h.inRoot).eq_true_iff.mp h.complete

theorem CompleteTo.level_le (h : CompleteTo d leaves) :
    ∀ e ∈ leaves.toList, ∃ l ≤ d, level e = .ok l := by
  intro e he
  obtain ⟨l, _, hl⟩ := level_of_valid (h.inRoot e he).1
  exact ⟨l, level_le_of_maxLevel? h.top he hl, hl⟩

/-- The root alone is complete without finer levels. -/
theorem CompleteTo.eq_root (h : CompleteTo 0 leaves) : leaves.toList = [root] := by
  obtain ⟨e, rest, whole⟩ := List.exists_cons_of_ne_nil h.tiled.ne_nil
  have tiled := h.tiled
  obtain ⟨l, hle, hl⟩ := h.level_le e (whole ▸ List.mem_cons_self)
  cases Nat.le_zero.mp hle
  rw [whole] at tiled
  obtain ⟨lo, hi, he⟩ := inRoot_iff_extent.mp (tiled.laid.inRoot e List.mem_cons_self)
  obtain ⟨k, i, down, _, _⟩ := he
  cases hl.symm.trans down.level_of_root
  obtain ⟨_, rfl⟩ := descends_zero_iff.mp down
  have room := ((tiled_cons_iff extent_root).mp tiled).length_le
  obtain rfl : rest = [] := List.length_eq_zero_iff.mp (by omega)
  exact whole

theorem maxLevel?_eq (inRoot : ∀ e ∈ leaves.toList, InRoot e)
    (coarser : ∀ e ∈ leaves.toList, ∃ l ≤ d, level e = .ok l) {e : E} (he : e ∈ leaves.toList)
    (hl : level e = .ok d) : leaves.maxLevel? = .ok (some d) := by
  obtain ⟨f, _, top⟩ := exists_maxLevel? (fun e he => (inRoot e he).1) (List.ne_nil_of_mem he)
  obtain ⟨e', he', hl'⟩ := exists_of_maxLevel? top
  obtain ⟨l, hle, hl''⟩ := coarser e' he'
  cases hl'.symm.trans hl''
  rw [top, Nat.le_antisymm hle (level_le_of_maxLevel? top he hl)]

variable [DecidableEq E] {policy : Policy Client E} {limits : Limits}

theorem exists_gathering_pass (gathers : Gathers policy) (client : Client)
    (unlimited : limits.budget.maxCoarsenings = 0) (room : limits.minLevel ≤ m)
    (h : CompleteTo (m + 1) leaves) :
    ∃ out, adapt limits policy client leaves = .ok out ∧ CompleteTo m out.leaves ∧
      out.stats.refinements = 0 := by
  have ordered : Ordered leaves := ordered_iff_laid.mpr h.tiled.laid
  have cooperates := (gathers.willing InRoot).cooperates hereditary_inRoot limits client h.inRoot
  obtain ⟨out, ran, same⟩ := exists_pass ordered cooperates
  obtain ⟨p, moves, new, stats, _⟩ := exists_moves (fun e he => (h.inRoot e he).1) ran
  have start : Lowering m ⟨[], leaves.toList, .start client⟩ :=
    ⟨rfl, ⟨0, Nat.dvd_zero _, h.tiled⟩, h.level_le, by simp, rfl⟩
  have done := lowering_of_moves gathers unlimited room moves start
  have coarse := done.placed
  rw [← new] at coarse
  refine ⟨out, ran, ⟨same.ordered.inRoot, same.complete h.complete, ?_⟩, ?_⟩
  · obtain ⟨changes, old, new'⟩ :=
      changes_of_adapt ran (fun e he => (h.inRoot e he).1) h.tiled.laid.pairwise_apart
    obtain ⟨e, he, hl⟩ := exists_of_maxLevel? h.top
    obtain ⟨q, hq, hl'⟩ := exists_merged changes (old ▸ he) hl (new' ▸ coarse)
    exact maxLevel?_eq same.ordered.inRoot coarse (new' ▸ hq) hl'
  · rw [stats]
    exact done.refinements

theorem exists_gathering_passes (gathers : Gathers policy) (client : Client)
    (unlimited : limits.budget.maxCoarsenings = 0) {n : Nat}
    (h : CompleteTo (limits.minLevel + n) leaves) :
    ∃ last, repeatPasses limits policy client n leaves = .ok (last, 0) ∧
      CompleteTo limits.minLevel last := by
  induction n generalizing leaves with
  | zero => exact ⟨leaves, rfl, h⟩
  | succ n ih =>
      obtain ⟨out, ran, h', refinements⟩ :=
        exists_gathering_pass gathers client unlimited (Nat.le_add_right _ n) h
      obtain ⟨last, repeated, done⟩ := ih h'
      refine ⟨last, ?_, done⟩
      rw [repeatPasses, ran, ok_bind, repeated, ok_bind, refinements]
      rfl

end

/-- A pass that merges every family it is offered takes one level off a complete array, as long
as the limits let it.  As many passes as there are levels above the coarsest one allowed get
down to that level, and to the root if it is zero. -/
theorem gathering_lowers_complete (s : Shape) {policy : Policy Client s.Carrier}
    (gathers : Gathers policy) (client : Client) {limits : Limits}
    (unlimited : limits.budget.maxCoarsenings = 0) {leaves : Leaves s.Carrier} {d : Nat}
    (h : CompleteTo d leaves) :
    (limits.minLevel < d →
        ∃ out, adapt limits policy client leaves = .ok out ∧ CompleteTo (d - 1) out.leaves) ∧
      (limits.minLevel ≤ d → ∃ last,
        repeatPasses limits policy client (d - limits.minLevel) leaves = .ok (last, 0) ∧
          CompleteTo limits.minLevel last ∧
          (limits.minLevel = 0 → last.toList = [root])) := by
  constructor
  · intro finer
    obtain ⟨m, rfl⟩ : ∃ m, d = m + 1 := ⟨d - 1, by omega⟩
    obtain ⟨out, ran, done, _⟩ :=
      exists_gathering_pass gathers client unlimited (Nat.le_of_lt_succ finer) h
    exact ⟨out, ran, done⟩
  · intro room
    obtain ⟨n, rfl⟩ := Nat.exists_eq_add_of_le room
    obtain ⟨last, repeated, done⟩ := exists_gathering_passes gathers client unlimited h
    rw [Nat.add_sub_cancel_left]
    exact ⟨last, repeated, done, fun bottom => (bottom ▸ done).eq_root⟩

/-- The first pass merges the family in the middle, the second one what is then the family of
the root. -/
theorem gathering_lowers_complete_triangle :
    Gathers (gather Triangle) ∧ CompleteTo 2 sevenTriangles ∧
      (∃ out, adapt .unbounded (gather Triangle) () sevenTriangles = .ok out ∧
        CompleteTo 1 out.leaves) ∧
      repeatPasses .unbounded (gather Triangle) () 2 sevenTriangles = .ok (⟨[root]⟩, 0) := by
  have gathers := gather_gathers Triangle
  have complete : CompleteTo 2 sevenTriangles := by
    refine ⟨?_, by rfl, by rfl⟩
    unfold InRoot
    decide
  have unlimited : Limits.unbounded.budget.maxCoarsenings = 0 := rfl
  obtain ⟨once, often⟩ := gathering_lowers_complete .triangle gathers () unlimited complete
  obtain ⟨last, repeated, _, whole⟩ := often (Nat.zero_le 2)
  refine ⟨gathers, complete, once Nat.two_pos, ?_⟩
  have only : last = ⟨[root]⟩ := congrArg Leaves.mk (whole rfl)
  exact only ▸ repeated

end MeshCurve.Adapt
