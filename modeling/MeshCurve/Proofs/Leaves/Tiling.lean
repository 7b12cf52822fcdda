import MeshCurve.Leaves.Basic
import MeshCurve.Proofs.Extent

/-!
# Tilings

The extents of leaves in curve order follow one another.  Leaves that nowhere leave a
gap tile an interval, and complete leaves are those that tile all the ids there are.
-/

namespace MeshCurve.Leaves

open Element

variable {E : Type} [Element E]

/-- The extents of the leaves fill an interval, each from where the last one ended. -/
inductive Tiled : (lo hi : Nat) → List E → Prop
  | nil {n : Nat} : Tiled n n []
  | cons {e : E} {lo mid hi : Nat} {rest : List E} : Extent e lo mid → Tiled mid hi rest →
      Tiled lo hi (e :: rest)

/-- The extents of the leaves follow one another from `next` on. -/
inductive Laid : (next : Nat) → List E → Prop
  | nil {next : Nat} : Laid next []
  | cons {e : E} {next lo hi : Nat} {rest : List E} : next ≤ lo → Extent e lo hi →
      Laid hi rest → Laid next (e :: rest)

/-! ## Joining -/

theorem tiled_nil_iff {lo hi : Nat} : Tiled lo hi ([] : List E) ↔ lo = hi := by
  constructor
  · intro h
    cases h
    rfl
  · rintro rfl
    exact .nil

theorem tiled_append_iff {lo hi : Nat} {xs ys : List E} :
    Tiled lo hi (xs ++ ys) ↔ ∃ mid, Tiled lo mid xs ∧ Tiled mid hi ys := by
  induction xs generalizing lo with
  | nil =>
      constructor
      · intro h
        exact ⟨lo, .nil, h⟩
      · rintro ⟨mid, none, h⟩
        cases none
        exact h
  | cons e xs ih =>
      constructor
      · intro h
        cases h with
        | cons he h =>
            obtain ⟨mid, hx, hy⟩ := ih.mp h
            exact ⟨mid, .cons he hx, hy⟩
      · rintro ⟨mid, hx, hy⟩
        cases hx with
        | cons he hx => exact .cons he (ih.mpr ⟨mid, hx, hy⟩)

theorem tiled_singleton {e : E} {lo hi : Nat} (he : Extent e lo hi) : Tiled lo hi [e] :=
  .cons he .nil

/-- Every leaf covers at least one id. -/
theorem Tiled.length_le {lo hi : Nat} {leaves : List E} (h : Tiled lo hi leaves) :
    lo + leaves.length ≤ hi := by
  induction h with
  | nil => exact Nat.le_refl _
  | cons he _ ih =>
      have := he.lt
      rw [List.length_cons]
      omega

theorem Tiled.le {lo hi : Nat} {leaves : List E} (h : Tiled lo hi leaves) : lo ≤ hi :=
  (Nat.le_add_right lo _).trans h.length_le

theorem Laid.mono {n m : Nat} {xs : List E} (h : Laid m xs) (hnm : n ≤ m) : Laid n xs := by
  cases h with
  | nil => exact .nil
  | cons start he rest => exact .cons (hnm.trans start) he rest

theorem Laid.of_append {n : Nat} {xs ys : List E} (h : Laid n (xs ++ ys)) : Laid n ys := by
  induction xs generalizing n with
  | nil => exact h
  | cons e xs ih =>
      cases h with
      | cons start he rest => exact (ih rest).mono (start.trans he.lt.le)

/-- The elements of a level with the numbers from `q` on. -/
def Consecutive (l q : Nat) (es : List E) : Prop :=
  ∀ j < es.length, ∃ e, es[j]? = some e ∧ Descends root l (q + j) e

theorem consecutive_cons_iff {l q : Nat} {e : E} {es : List E} :
    Consecutive l q (e :: es) ↔ Descends root l q e ∧ Consecutive l (q + 1) es := by
  constructor
  · intro h
    constructor
    · obtain ⟨d, hd, first⟩ := h 0 (Nat.succ_pos _)
      cases hd
      exact first
    · intro j hj
      obtain ⟨d, hd, next⟩ := h (j + 1) (Nat.succ_lt_succ hj)
      exact ⟨d, hd, by rwa [Nat.add_assoc, Nat.add_comm 1]⟩
  · rintro ⟨first, later⟩ j hj
    cases j with
    | zero => exact ⟨e, rfl, first⟩
    | succ j =>
        obtain ⟨d, hd, next⟩ := later j (Nat.lt_of_succ_lt_succ hj)
        exact ⟨d, hd, by rwa [Nat.add_assoc, Nat.add_comm 1] at next⟩

theorem tiled_of_consecutive {l q : Nat} {leaves : List E} (h : Consecutive l q leaves) :
    Tiled (q * span E l) ((q + leaves.length) * span E l) leaves := by
  induction leaves generalizing q with
  | nil => exact .nil
  | cons e leaves ih =>
      obtain ⟨first, later⟩ := consecutive_cons_iff.mp h
      have rest := ih later
      rw [Nat.add_assoc, Nat.add_comm 1] at rest
      exact .cons first.extent rest

section

variable [LawfulNumbering E]

theorem tiled_children {p : E} {lo hi : Nat} {cs : List E} (hp : Extent p lo hi)
    (h : children p = .ok cs) : Tiled lo hi cs := by
  obtain ⟨l, i, hp, rfl, rfl⟩ := hp
  have finer : l + 1 ≤ finest E := level_lt_of_children h hp.level_of_root
  have consecutive : Tiled (branching E * i * span E (l + 1))
      ((branching E * i + cs.length) * span E (l + 1)) cs := by
    apply tiled_of_consecutive
    intro j hj
    rw [length_children h] at hj
    obtain ⟨c, hc, step⟩ := getElem?_children h hj
    exact ⟨c, hc, hp.child hj step⟩
  have whole : ∀ n, n * span E l = branching E * n * span E (l + 1) := by
    intro n
    rw [← pow_mul_span finer, pow_one, Nat.mul_left_comm, Nat.mul_assoc]
  rwa [length_children h, ← Nat.mul_succ, ← whole, ← whole] at consecutive

theorem Tiled.start_eq {e : E} {lo hi lo' mid : Nat} {rest : List E}
    (h : Tiled lo hi (e :: rest)) (he : Extent e lo' mid) : lo = lo' := by
  cases h with
  | cons he' _ => exact (he'.unique he).1

theorem tiled_cons_iff {e : E} {lo mid hi : Nat} {rest : List E} (he : Extent e lo mid) :
    Tiled lo hi (e :: rest) ↔ Tiled mid hi rest := by
  constructor
  · intro h
    cases h with
    | cons he' h =>
        rw [(he.unique he').2]
        exact h
  · exact .cons he

theorem Tiled.unique {lo hi lo' hi' : Nat} {leaves : List E} (h : Tiled lo hi leaves)
    (h' : Tiled lo' hi' leaves) (hne : leaves ≠ []) : lo = lo' ∧ hi = hi' := by
  induction h generalizing lo' with
  | nil => exact absurd rfl hne
  | @cons e lo mid hi rest he h ih =>
      cases h' with
      | cons he' h' =>
          obtain ⟨rfl, rfl⟩ := he.unique he'
          refine ⟨rfl, ?_⟩
          cases rest with
          | nil =>
              cases h
              cases h'
              rfl
          | cons d rest => exact (ih h' (List.cons_ne_nil d rest)).2

theorem laid_cons_iff {n lo hi : Nat} {e : E} {rest : List E} (he : Extent e lo hi) :
    Laid n (e :: rest) ↔ n ≤ lo ∧ Laid hi rest := by
  constructor
  · intro h
    cases h with
    | cons start he' h =>
        obtain ⟨rfl, rfl⟩ := he.unique he'
        exact ⟨start, h⟩
  · rintro ⟨start, h⟩
    exact .cons start he h

theorem laid_append_iff {n lo hi : Nat} {xs ys : List E} (h : Tiled lo hi xs) (hlt : lo < hi) :
    Laid n (xs ++ ys) ↔ n ≤ lo ∧ Laid hi ys := by
  induction h generalizing n with
  | nil => exact absurd hlt (Nat.lt_irrefl _)
  | @cons e lo mid hi rest he h ih =>
      rw [List.cons_append, laid_cons_iff he]
      cases h with
      | nil => rfl
      | cons hd h =>
          have room := hd.lt.trans_le h.le
          rw [ih room]
          constructor
          · rintro ⟨start, _, laid⟩
            exact ⟨start, laid⟩
          · rintro ⟨start, laid⟩
            exact ⟨start, Nat.le_refl _, laid⟩

theorem Laid.inRoot {next : Nat} {leaves : List E} (h : Laid next leaves) :
    ∀ e ∈ leaves, InRoot e := by
  induction h with
  | nil => exact fun e he => absurd he List.not_mem_nil
  | cons _ he _ ih => exact List.forall_mem_cons.mpr ⟨he.inRoot, ih⟩

theorem Laid.le_start {next lo hi : Nat} {leaves : List E} {e : E} (h : Laid next leaves)
    (hmem : e ∈ leaves) (he : Extent e lo hi) : next ≤ lo := by
  induction h with
  | nil => exact absurd hmem List.not_mem_nil
  | cons start hd _ ih =>
      rcases List.mem_cons.mp hmem with rfl | hmem
      · rwa [(he.unique hd).1]
      · exact (start.trans hd.lt.le).trans (ih hmem)

end

/-! ## Order -/

theorem isSortedList_cons_iff {a b : E} {rest : List E} :
    isSortedList (a :: b :: rest) = .ok true ↔
      Element.compare a b = .ok .lt ∧ isSortedList (b :: rest) = .ok true := by
  rw [isSortedList, bind_eq_ok_iff]
  constructor
  · rintro ⟨o, order, h⟩
    split at h
    · next less => exact ⟨less ▸ order, h⟩
    · next => cases h
  · rintro ⟨order, h⟩
    exact ⟨.lt, order, h⟩

section

variable [LawfulNumbering E]

theorem laid_of_sorted {e : E} {lo hi : Nat} {rest : List E} (he : Extent e lo hi)
    (inRoot : ∀ d ∈ rest, InRoot d) (sorted : isSortedList (e :: rest) = .ok true)
    (apart : (e :: rest).Pairwise Apart) : Laid hi rest := by
  induction rest generalizing e lo hi with
  | nil => exact .nil
  | cons d rest ih =>
      obtain ⟨first, later⟩ := List.forall_mem_cons.mp inRoot
      obtain ⟨order, sorted⟩ := isSortedList_cons_iff.mp sorted
      obtain ⟨across, apart⟩ := List.pairwise_cons.mp apart
      obtain ⟨lo', hi', hd⟩ := inRoot_iff_extent.mp first
      have start := (he.le_iff hd).mpr ⟨order, across d List.mem_cons_self⟩
      exact .cons start hd (ih hd later sorted apart)

theorem Laid.sorted {next : Nat} {leaves : List E} (h : Laid next leaves) :
    isSortedList leaves = .ok true := by
  induction h with
  | nil => rfl
  | cons _ he h ih =>
      cases h with
      | nil => rfl
      | cons start hd h =>
          exact isSortedList_cons_iff.mpr ⟨((he.le_iff hd).mp start).1, ih⟩

theorem Laid.pairwise_apart {next : Nat} {leaves : List E} (h : Laid next leaves) :
    leaves.Pairwise Apart := by
  induction h with
  | nil => exact .nil
  | cons _ he h ih =>
      refine List.pairwise_cons.mpr ⟨?_, ih⟩
      intro d hd
      obtain ⟨lo', hi', hd'⟩ := inRoot_iff_extent.mp (h.inRoot d hd)
      exact ((he.le_iff hd').mp (h.le_start hd hd')).2

variable [DecidableEq E]

/-- No leaf is an ancestor of another one, or equal to it. -/
def Separate (leaves : Leaves E) : Prop :=
  leaves.toList.Pairwise fun a b => isAncestor a b = .ok false ∧ isAncestor b a = .ok false

/-- Leaves inside the root that follow the curve and are separate. -/
structure Ordered (leaves : Leaves E) : Prop where
  inRoot : ∀ e ∈ leaves.toList, InRoot e
  sorted : leaves.isSorted = .ok true
  separate : Separate leaves

theorem separate_iff {leaves : Leaves E}
    (h : ∀ e ∈ leaves.toList, Valid e) : Separate leaves ↔ leaves.toList.Pairwise Apart := by
  apply List.Pairwise.iff_of_mem
  intro a b ha hb
  rw [(isAncestor_of_valid (h a ha) (h b hb)).eq_false_iff,
    (isAncestor_of_valid (h b hb) (h a ha)).eq_false_iff, Apart]

/-- What sorting and the ancestor test check one leaf at a time is that the extents
follow one another. -/
theorem ordered_iff_laid {leaves : Leaves E} : Ordered leaves ↔ Laid 0 leaves.toList := by
  obtain ⟨leaves⟩ := leaves
  constructor
  · rintro ⟨inRoot, sorted, separate⟩
    have apart := (separate_iff fun e he => (inRoot e he).1).mp separate
    cases leaves with
    | nil => exact .nil
    | cons e rest =>
        obtain ⟨first, later⟩ := List.forall_mem_cons.mp inRoot
        obtain ⟨lo, hi, he⟩ := inRoot_iff_extent.mp first
        exact .cons (Nat.zero_le lo) he (laid_of_sorted he later sorted apart)
  · intro h
    refine ⟨h.inRoot, h.sorted, ?_⟩
    exact (separate_iff fun e he => (h.inRoot e he).1).mpr h.pairwise_apart

end

/-! ## Cover -/

theorem extent_of_finest [LawfulNumbering E] {d : E} {n : Nat} (hd : InRoot d)
    (hl : level d = .ok (finest E)) (hid : linearId d (finest E) = .ok n) : Extent d n (n + 1) := by
  obtain ⟨l, i, h⟩ := inRoot_iff.mp hd
  obtain rfl := Except.ok.inj (hl.symm.trans h.level_of_root)
  rw [linearId_of_descends h (Nat.le_refl _), idAt_self] at hid
  cases hid
  simpa [span_finest] using h.extent

section

variable [DecidableEq E]

/-- Some leaf is an ancestor of the element with id `n` of the finest level. -/
def Covers (leaves : List E) (n : Nat) : Prop :=
  ∃ d, (InRoot d ∧ level d = .ok (finest E) ∧ linearId d (finest E) = .ok n) ∧
    ∃ e ∈ leaves, isAncestor e d = .ok true

theorem not_covers_nil {n : Nat} : ¬ Covers ([] : List E) n := by
  rintro ⟨_, _, e, he, _⟩
  exact List.not_mem_nil he

theorem covers_append {xs ys : List E} {n : Nat} :
    Covers (xs ++ ys) n ↔ Covers xs n ∨ Covers ys n := by
  simp only [Covers, List.mem_append, or_and_right, exists_or, and_or_left]

variable [LawfulNumbering E]

theorem covers_singleton {e : E} {lo hi n : Nat} (he : Extent e lo hi) :
    Covers [e] n ↔ lo ≤ n ∧ n < hi := by
  constructor
  · rintro ⟨d, ⟨hd, hl, hid⟩, e', mem, above⟩
    obtain rfl := List.mem_singleton.mp mem
    have below := (isAncestor_of_valid he.inRoot.1 hd.1).eq_true_iff.mp above
    exact below.extent_le he (extent_of_finest hd hl hid)
  · rintro ⟨from', until'⟩
    obtain ⟨d, hd⟩ := exists_descends_root (E := E) (Nat.le_refl _)
      (until'.trans_le he.hi_le)
    obtain ⟨l, i, h, rfl, rfl⟩ := he
    have below : Below e d := by
      apply below_of_start h hd h.le_finest
      · rwa [span_finest, Nat.mul_one]
      · rwa [span_finest, Nat.mul_one]
    refine ⟨d, ⟨hd.inRoot, hd.level_of_root, ?_⟩, e, List.mem_cons_self, ?_⟩
    · rw [linearId_of_descends hd (Nat.le_refl _), idAt_self]
    · exact (isAncestor_of_valid h.valid_of_root hd.valid_of_root).eq_true below

theorem Tiled.covers_iff {lo hi n : Nat} {leaves : List E} (h : Tiled lo hi leaves) :
    Covers leaves n ↔ lo ≤ n ∧ n < hi := by
  induction h with
  | nil =>
      refine ⟨fun none => absurd none not_covers_nil, ?_⟩
      rintro ⟨from', until'⟩
      exact absurd until' (Nat.not_lt.mpr from')
  | @cons e lo mid hi rest he h ih =>
      rw [← List.singleton_append, covers_append, covers_singleton he, ih]
      have := he.lt
      have := h.le
      omega

end

/-! ## Completeness -/

theorem next_id_lt {e : E} {l i f : Nat} (he : Descends root l i e) (hle : l ≤ f)
    (hf : f ≤ finest E) :
    i * branching E ^ (f - l) + branching E ^ (f - l) < wordBound := by
  calc i * branching E ^ (f - l) + branching E ^ (f - l)
      = (i + 1) * branching E ^ (f - l) := (Nat.succ_mul _ _).symm
    _ ≤ branching E ^ l * branching E ^ (f - l) := Nat.mul_le_mul_right _ he.lt
    _ = branching E ^ f := by rw [← pow_add, Nat.add_sub_cancel' hle]
    _ ≤ branching E ^ finest E := Nat.pow_le_pow_right (branching_pos E) hf
    _ < wordBound := pow_finest_lt E

section

variable [LawfulNumbering E]

theorem tilesFrom_of_inRoot {f next : Nat} (hf : f ≤ finest E) {leaves : List E}
    (inRoot : ∀ e ∈ leaves, InRoot e) (coarser : ∀ e ∈ leaves, ∃ l ≤ f, level e = .ok l) :
    Decides (tilesFrom f next leaves)
      (Tiled (next * span E f) (branching E ^ finest E) leaves) := by
  induction leaves generalizing next with
  | nil =>
      have total := pow_mul_span (E := E) (l := 0) (k := f) (by omega)
      rw [Nat.zero_add, span_zero] at total
      rw [tilesFrom, pow_eq_ok hf, ok_bind, pure_eq_ok, tiled_nil_iff, ← total,
        Nat.mul_left_inj (span_pos f).ne']
      exact decides_of_ok
  | cons e rest ih =>
      obtain ⟨first, later⟩ := List.forall_mem_cons.mp inRoot
      obtain ⟨⟨l, hle, hl⟩, below⟩ := List.forall_mem_cons.mp coarser
      obtain ⟨m, i, he⟩ := inRoot_iff.mp first
      obtain rfl := Except.ok.inj (hl.symm.trans he.level_of_root)
      have scale := pow_mul_span (E := E) (l := l) (k := f - l) (by omega)
      rw [Nat.add_sub_cancel' hle] at scale
      rw [tilesFrom, linearId_of_descends he hf, ok_bind, idAt_of_ge hle]
      by_cases start : i * branching E ^ (f - l) = next
      · subst start
        rw [if_neg (not_not.mpr rfl), hl, ok_bind, pow_eq_ok ((Nat.sub_le f l).trans hf), ok_bind,
          word_of_lt (next_id_lt he hle hf), ok_bind]
        refine (ih later below).congr ?_
        rw [← Nat.succ_mul, Nat.mul_assoc, Nat.mul_assoc, scale]
        exact (tiled_cons_iff he.extent).symm
      · -- The walk stops at a gap or an overlap, and no later leaf can mend it.
        rw [if_pos start, pure_eq_ok]
        apply decides_false
        intro h
        have same := h.start_eq he.extent
        rw [← scale, ← Nat.mul_assoc, Nat.mul_left_inj (span_pos f).ne'] at same
        exact start same.symm

theorem exists_levels {leaves : Leaves E} (h : ∀ e ∈ leaves.toList, Valid e) :
    ∃ ls, leaves.levels = .ok ls ∧ (∀ e ∈ leaves.toList, ∃ l ∈ ls, level e = .ok l) ∧
      ∀ l ∈ ls, l ≤ finest E := by
  have each : ∀ e ∈ leaves.toList, ∃ l, level e = .ok l := by
    intro e he
    obtain ⟨l, _, hl⟩ := level_of_valid (h e he)
    exact ⟨l, hl⟩
  obtain ⟨ls, hls⟩ := exists_mapM_eq_ok each
  refine ⟨ls, hls, ?_, ?_⟩
  · intro e he
    obtain ⟨i, hi⟩ := List.getElem?_of_mem he
    obtain ⟨l, hl, hle⟩ := getElem?_of_mapM_eq_ok hls hi
    exact ⟨l, List.mem_of_getElem? hl, hle⟩
  · intro l hl
    obtain ⟨e, he, hle⟩ := exists_of_mem_of_mapM_eq_ok hls hl
    obtain ⟨l', fine, hle'⟩ := level_of_valid (h e he)
    cases hle.symm.trans hle'
    exact fine

theorem isComplete_of_inRoot {leaves : Leaves E} (h : ∀ e ∈ leaves.toList, InRoot e) :
    Decides leaves.isComplete (Tiled 0 (branching E ^ finest E) leaves.toList) := by
  obtain ⟨ls, hls, each, fine⟩ := exists_levels fun e he => (h e he).1
  rw [isComplete, maxLevel?, hls, ok_bind, pure_eq_ok, ok_bind]
  cases hmax : ls.max? with
  | none =>
      have empty : leaves.toList = [] := by
        apply List.eq_nil_iff_forall_not_mem.mpr
        intro e he
        obtain ⟨l, hl, _⟩ := each e he
        rw [List.max?_eq_none_iff.mp hmax] at hl
        exact absurd hl List.not_mem_nil
      rw [empty, tiled_nil_iff]
      exact decides_false (Nat.pow_pos (branching_pos E)).ne
  | some f =>
      obtain ⟨hf, top⟩ := List.max?_eq_some_iff.mp hmax
      have coarser : ∀ e ∈ leaves.toList, ∃ l ≤ f, level e = .ok l := by
        intro e he
        obtain ⟨l, hl, hle⟩ := each e he
        exact ⟨l, top l hl, hle⟩
      have walk : Decides (tilesFrom f 0 leaves.toList)
          (Tiled (0 * span E f) (branching E ^ finest E) leaves.toList) :=
        tilesFrom_of_inRoot (fine f hf) h coarser
      rwa [Nat.zero_mul] at walk

end

end MeshCurve.Leaves
