import MeshCurve.Digit.Radix
import MeshCurve.Proofs.Curve

/-!
# Extents

An element inside the root covers an interval of the ids of the finest level: those of
the elements below it.  Two such intervals are nested or disjoint, which says whether
one element is below the other and, if not, which of them comes first on the curve.
-/

namespace MeshCurve.Element

variable {E : Type} [Element E]

/-- Number of finest ids that an element of a level covers. -/
def span (E : Type) [Element E] (l : Nat) : Nat := branching E ^ (finest E - l)

/-- `e` covers the finest ids from `lo` up to but not including `hi`. -/
def Extent (e : E) (lo hi : Nat) : Prop :=
  ∃ l i, Descends root l i e ∧ i * span E l = lo ∧ (i + 1) * span E l = hi

/-! ## Spans -/

theorem span_pos (l : Nat) : 0 < span E l := Nat.pow_pos (branching_pos E)

theorem span_zero : span E 0 = branching E ^ finest E := rfl

theorem span_finest : span E (finest E) = 1 := by
  rw [span, Nat.sub_self, pow_zero]

theorem pow_mul_span {l k : Nat} (h : l + k ≤ finest E) :
    branching E ^ k * span E (l + k) = span E l := by
  rw [span, span, ← pow_add]
  congr 1
  omega

theorem pow_finest_lt (E : Type) [Element E] : branching E ^ finest E < wordBound := by
  unfold branching finest
  cases shape E <;> decide

theorem pow_eq_ok {k : Nat} (hk : k ≤ finest E) :
    Radix.pow (branching E) k = .ok (branching E ^ k) := by
  apply Radix.pow_eq_ok_of_lt
  calc branching E ^ k ≤ branching E ^ finest E := Nat.pow_le_pow_right (branching_pos E) hk
    _ < wordBound := pow_finest_lt E

/-! ## Nesting -/

theorem Descends.extent {e : E} {l i : Nat} (h : Descends root l i e) :
    Extent e (i * span E l) ((i + 1) * span E l) := ⟨l, i, h, rfl, rfl⟩

theorem extent_root : Extent (root : E) 0 (branching E ^ finest E) :=
  ⟨0, 0, .here, Nat.zero_mul _, by rw [Nat.zero_add, Nat.one_mul, span_zero]⟩

theorem Extent.lt {e : E} {lo hi : Nat} (h : Extent e lo hi) : lo < hi := by
  obtain ⟨l, i, _, rfl, rfl⟩ := h
  exact Nat.mul_lt_mul_of_pos_right (Nat.lt_succ_self i) (span_pos l)

section

variable [LawfulNumbering E]

theorem Descends.le_finest {e : E} {l i : Nat} (h : Descends root l i e) : l ≤ finest E := by
  simpa using h.level_le_finest valid_root level_root

theorem inRoot_iff_extent {e : E} : InRoot e ↔ ∃ lo hi, Extent e lo hi := by
  rw [inRoot_iff]
  constructor
  · rintro ⟨l, i, h⟩
    exact ⟨_, _, h.extent⟩
  · rintro ⟨_, _, l, i, h, _⟩
    exact ⟨l, i, h⟩

theorem Extent.inRoot {e : E} {lo hi : Nat} (h : Extent e lo hi) : InRoot e :=
  inRoot_iff_extent.mpr ⟨lo, hi, h⟩

theorem Descends.unique_of_root {e : E} {l m i j : Nat} (h : Descends root l i e)
    (h' : Descends root m j e) : l = m ∧ i = j := by
  obtain rfl := Except.ok.inj (h.level_of_root.symm.trans h'.level_of_root)
  exact ⟨rfl, h.index_unique h' valid_root⟩

theorem Extent.unique {e : E} {lo lo' hi hi' : Nat} (h : Extent e lo hi)
    (h' : Extent e lo' hi') : lo = lo' ∧ hi = hi' := by
  obtain ⟨l, i, h, rfl, rfl⟩ := h
  obtain ⟨m, j, h', rfl, rfl⟩ := h'
  obtain ⟨rfl, rfl⟩ := h.unique_of_root h'
  exact ⟨rfl, rfl⟩

theorem Below.extent_le {a b : E} {lo hi lo' hi' : Nat} (h : Below a b) (ha : Extent a lo hi)
    (hb : Extent b lo' hi') : lo ≤ lo' ∧ hi' ≤ hi := by
  obtain ⟨l, i, ha, rfl, rfl⟩ := ha
  obtain ⟨m, j, hb, rfl, rfl⟩ := hb
  obtain ⟨k, n, h⟩ := h
  obtain ⟨rfl, rfl⟩ := hb.unique_of_root (ha.trans h)
  have inside := h.lt
  rw [← pow_mul_span hb.le_finest, ← Nat.mul_assoc, ← Nat.mul_assoc]
  constructor
  · exact Nat.mul_le_mul_right _ (Nat.le_add_right _ _)
  · apply Nat.mul_le_mul_right
    rw [Nat.succ_mul]
    omega

theorem Extent.hi_le {e : E} {lo hi : Nat} (h : Extent e lo hi) :
    hi ≤ branching E ^ finest E := by
  obtain ⟨l, i, he⟩ := inRoot_iff.mp h.inRoot
  exact (Below.extent_le ⟨l, i, he⟩ extent_root h).2

/-- On a finer level the id of an element is where its extent starts. -/
theorem Extent.exists_id {e : E} {lo hi l f : Nat} (h : Extent e lo hi) (hl : level e = .ok l)
    (hle : l ≤ f) (hf : f ≤ finest E) : ∃ id, linearId e f = .ok id ∧ id * span E f = lo := by
  obtain ⟨m, i, he, rfl, _⟩ := h
  obtain rfl := Except.ok.inj (hl.symm.trans he.level_of_root)
  have scale := pow_mul_span (E := E) (l := l) (k := f - l) (by omega)
  rw [Nat.add_sub_cancel' hle] at scale
  refine ⟨_, linearId_of_descends he hf, ?_⟩
  rw [idAt_of_ge hle, Nat.mul_assoc, scale]

/-- A finer element that starts inside a coarser one is below it. -/
theorem below_of_start {a b : E} {l m i j : Nat} (ha : Descends root l i a)
    (hb : Descends root m j b) (hle : l ≤ m) (from' : i * span E l ≤ j * span E m)
    (until' : j * span E m < (i + 1) * span E l) : Below a b := by
  obtain ⟨k, rfl⟩ := Nat.exists_eq_add_of_le hle
  rw [← pow_mul_span hb.le_finest, ← Nat.mul_assoc] at from' until'
  have lower := Nat.le_of_mul_le_mul_right from' (span_pos (E := E) (l + k))
  have upper := Nat.lt_of_mul_lt_mul_right until'
  obtain ⟨c, hc, hcb⟩ := hb.split
  have same : j / branching E ^ k = i := Nat.div_eq_of_lt_le lower upper
  rw [same] at hc
  rw [ha.unique hc]
  exact ⟨_, _, hcb⟩

/-! ## Order on the curve -/

theorem compare_of_descends {a b : E} {l m i j : Nat} (ha : Descends root l i a)
    (hb : Descends root m j b) :
    Element.compare a b =
      .ok ((Ord.compare (i * span E l) (j * span E m)).then (Ord.compare l m)) := by
  have hfine : max l m ≤ finest E := Nat.max_le.mpr ⟨ha.le_finest, hb.le_finest⟩
  have scaled : ∀ {k n : Nat}, k ≤ max l m →
      idAt (branching E) k n (max l m) * span E (max l m) = n * span E k := by
    intro k n hk
    rw [idAt_of_ge hk, Nat.mul_assoc]
    congr 1
    have := pow_mul_span (E := E) (l := k) (k := max l m - k) (by omega)
    rwa [Nat.add_sub_cancel' hk] at this
  have order : Ord.compare (idAt (branching E) l i (max l m))
        (idAt (branching E) m j (max l m)) =
      Ord.compare (i * span E l) (j * span E m) := by
    rw [← scaled (Nat.le_max_left l m), ← scaled (Nat.le_max_right l m),
      Nat.compare_eq_ite_lt, Nat.compare_eq_ite_lt]
    simp only [Nat.mul_lt_mul_right (span_pos (E := E) _)]
  rw [Element.compare, ha.level_of_root, hb.level_of_root, ok_bind, ok_bind,
    linearId_of_descends ha hfine, linearId_of_descends hb hfine, ok_bind, ok_bind, order,
    pure_eq_ok]

theorem compare_eq_lt_iff {a b : E} {l m i j : Nat} (ha : Descends root l i a)
    (hb : Descends root m j b) : Element.compare a b = .ok .lt ↔
      i * span E l < j * span E m ∨ i * span E l = j * span E m ∧ l < m := by
  rw [compare_of_descends ha hb, Except.ok.injEq, Ordering.then_eq_lt, Nat.compare_eq_lt,
    Nat.compare_eq_eq, Nat.compare_eq_lt]

/-- One extent ends before the other starts exactly if the elements follow one another
on the curve and are apart. -/
theorem Extent.le_iff {a b : E} {lo hi lo' hi' : Nat} (ha : Extent a lo hi)
    (hb : Extent b lo' hi') :
    hi ≤ lo' ↔ Element.compare a b = .ok .lt ∧ Apart a b := by
  have hlt := ha.lt
  have hlt' := hb.lt
  constructor
  · intro before
    refine ⟨?_, ?_, ?_⟩
    · obtain ⟨l, i, da, rfl, rfl⟩ := ha
      obtain ⟨m, j, db, rfl, rfl⟩ := hb
      exact (compare_eq_lt_iff da db).mpr (.inl (hlt.trans_le before))
    · intro below
      have := below.extent_le ha hb
      omega
    · intro below
      have := below.extent_le hb ha
      omega
  · rintro ⟨order, apart, _⟩
    obtain ⟨l, i, da, rfl, rfl⟩ := ha
    obtain ⟨m, j, db, rfl, rfl⟩ := hb
    rw [compare_eq_lt_iff da db] at order
    by_contra overlap
    rw [Nat.not_le] at overlap
    rcases Nat.lt_or_ge m l with hgt | hle
    · -- the start of the coarser element is a multiple of the finer span
      obtain ⟨k, rfl⟩ := Nat.exists_eq_add_of_lt hgt
      have start : i * span E (m + k + 1) < j * span E m := by omega
      rw [Nat.add_assoc] at start overlap
      rw [← pow_mul_span (E := E) (l := m) (k := k + 1) da.le_finest, ← Nat.mul_assoc]
        at start overlap
      have lower := Nat.lt_of_mul_lt_mul_right start
      have upper := Nat.lt_of_mul_lt_mul_right overlap
      omega
    · have start : i * span E l ≤ j * span E m := by omega
      exact apart (below_of_start da db hle start overlap)

end

end MeshCurve.Element
