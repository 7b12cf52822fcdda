import Mathlib.Analysis.Convex.Intrinsic
import Mathlib.Analysis.Convex.StdSimplex
import Mathlib.Order.CompletePartialOrder

/-!
# Cutting a simplex at the midpoints of its edges

A simplex is the hull of its vertices.  The midpoints of its edges cut off a simplex of
half the size at every vertex.  Of a triangle this leaves a triangle, and of a tetrahedron
an octahedron, which a diagonal cuts into four.
-/

namespace MeshCurve

open Finset

variable {V : Type*} [AddCommGroup V] [Module ℚ V]

/-! ## Weights -/

/-- The simplex with `n` vertices. -/
def hull (n : Nat) (p : Nat → V) : Set V := convexHull ℚ {q | ∃ v < n, p v = q}

theorem exists_weights {n : Nat} {p : Nat → V} {x : V} (hx : x ∈ hull n p) :
    ∃ w : Nat → ℚ, (∀ v < n, 0 ≤ w v) ∧ ∑ v ∈ range n, w v = 1 ∧
      ∑ v ∈ range n, w v • p v = x := by
  have vertices : {q | ∃ v < n, p v = q} =
      Fintype.linearCombination ℚ (fun v : Fin n => p v) '' Set.range fun v => Pi.single v 1 := by
    ext q
    simp [Fin.exists_iff]
  rw [hull, vertices, ← LinearMap.image_convexHull, convexHull_rangle_single_eq_stdSimplex] at hx
  obtain ⟨w, ⟨nonneg, total⟩, rfl⟩ := hx
  refine ⟨fun v => if h : v < n then w ⟨v, h⟩ else 0, ?_, ?_, ?_⟩
  · intro v hv
    simp [hv, nonneg]
  · rw [sum_range, ← total]
    simp
  · rw [sum_range, Fintype.linearCombination_apply]
    simp

/-! ## Parts -/

/-- The midpoints of some pairs of vertices. -/
def midpoints (p : Nat → V) (pairs : List (Nat × Nat)) : Set V :=
  {q | ∃ ab ∈ pairs, midpoint ℚ (p ab.1) (p ab.2) = q}

theorem convexHull_midpoints_subset {n : Nat} (p : Nat → V) {pairs : List (Nat × Nat)}
    (small : ∀ ab ∈ pairs, ab.1 < n ∧ ab.2 < n) : convexHull ℚ (midpoints p pairs) ⊆ hull n p := by
  refine convexHull_min ?_ (convex_convexHull ℚ _)
  rintro _ ⟨ab, hab, rfl⟩
  obtain ⟨ha, hb⟩ := small ab hab
  exact (convex_convexHull ℚ _).midpoint_mem (subset_convexHull ℚ _ ⟨_, ha, rfl⟩)
    (subset_convexHull ℚ _ ⟨_, hb, rfl⟩)

/-- The pairs of a vertex `a` with all. -/
def cap (n a : Nat) : List (Nat × Nat) := (List.range n).map (a, ·)

/-- A point with half of its weight on `a` is in the middle between `a` and a point of
the simplex. -/
theorem mem_cap {n a : Nat} {p : Nat → V} {w : Nat → ℚ} (nonneg : ∀ v < n, 0 ≤ w v)
    (total : ∑ v ∈ range n, w v = 1) (ha : a < n) (half : 1 / 2 ≤ w a) :
    ∑ v ∈ range n, w v • p v ∈ convexHull ℚ (midpoints p (cap n a)) := by
  let c (v : Nat) : ℚ := 2 * w v - if v = a then 1 else 0
  have nonneg' : ∀ v ∈ range n, 0 ≤ c v := by
    intro v hv
    have := nonneg v (mem_range.mp hv)
    rcases eq_or_ne v a with rfl | other
    · simp only [c, if_pos]
      linarith
    · simp only [c, if_neg other]
      linarith
  have total' : ∑ v ∈ range n, c v = 1 := by
    rw [sum_sub_distrib, ← mul_sum, total, sum_ite_eq', if_pos (mem_range.mpr ha)]
    norm_num
  have moved : ∑ v ∈ range n, c v • p v = (2 : ℚ) • ∑ v ∈ range n, w v • p v - p a := by
    simp only [c, sub_smul, sum_sub_distrib, mul_smul, ← smul_sum, ite_smul, one_smul, zero_smul,
      sum_ite_eq', if_pos (mem_range.mpr ha)]
  have middle : ∑ v ∈ range n, c v • midpoint ℚ (p a) (p v) = ∑ v ∈ range n, w v • p v := by
    simp only [midpoint_eq_smul_add, invOf_eq_inv, smul_comm (c _), ← smul_sum, smul_add,
      sum_add_distrib, ← sum_smul, total', moved]
    module
  rw [← middle]
  exact (convex_convexHull ℚ _).sum_mem nonneg' total' fun v hv => subset_convexHull ℚ _
    ⟨(a, v), List.mem_map.mpr ⟨v, List.mem_range.mpr (mem_range.mp hv), rfl⟩, rfl⟩

theorem mem_midpoints {p : Nat → V} {x : V} (ts : List (ℚ × Nat × Nat))
    (nonneg : ∀ t ∈ ts, 0 ≤ t.1) (total : (ts.map Prod.fst).sum = 1)
    (sum : (ts.map fun t => t.1 • midpoint ℚ (p t.2.1) (p t.2.2)).sum = x) :
    x ∈ convexHull ℚ (midpoints p (ts.map Prod.snd)) := by
  have inside : ∀ t ∈ ts, midpoint ℚ (p t.2.1) (p t.2.2) ∈ midpoints p (ts.map Prod.snd) :=
    fun t ht => ⟨t.2, List.mem_map_of_mem ht, rfl⟩
  rw [← Fin.sum_univ_fun_getElem] at total sum
  rw [← sum]
  exact (convex_convexHull ℚ _).sum_mem (fun i _ => nonneg _ (List.getElem_mem _)) total
    fun i _ => subset_convexHull ℚ _ (inside _ (List.getElem_mem _))

/-- The caps and some inner parts cover the simplex if these contain every point with at
most half of its weight on each vertex. -/
theorem mem_hull_iff_of_inner {n : Nat} {p : Nat → V} {x : V} {parts : List (List (Nat × Nat))}
    (small : ∀ pairs ∈ parts, ∀ ab ∈ pairs, ab.1 < n ∧ ab.2 < n) (caps : ∀ a < n, cap n a ∈ parts)
    (inner : ∀ w : Nat → ℚ, (∀ v < n, 0 ≤ w v) → (∀ v < n, w v ≤ 1 / 2) →
      ∑ v ∈ range n, w v = 1 →
        ∃ pairs ∈ parts, ∑ v ∈ range n, w v • p v ∈ convexHull ℚ (midpoints p pairs)) :
    x ∈ hull n p ↔ ∃ pairs ∈ parts, x ∈ convexHull ℚ (midpoints p pairs) := by
  constructor
  · intro hx
    obtain ⟨w, nonneg, total, rfl⟩ := exists_weights hx
    by_cases heavy : ∃ a < n, 1 / 2 ≤ w a
    · obtain ⟨a, ha, half⟩ := heavy
      exact ⟨cap n a, caps a ha, mem_cap nonneg total ha half⟩
    · have light : ∀ a < n, w a ≤ 1 / 2 := fun a ha => le_of_not_ge fun half => heavy ⟨a, ha, half⟩
      exact inner w nonneg light total
  · rintro ⟨pairs, part, hx⟩
    exact convexHull_midpoints_subset p (small pairs part) hx

/-! ## Triangles -/

def triangleParts : List (List (Nat × Nat)) :=
  [cap 3 0, cap 3 1, cap 3 2, [(0, 1), (0, 2), (1, 2)]]

theorem triangleParts_lt : ∀ pairs ∈ triangleParts, ∀ ab ∈ pairs, ab.1 < 3 ∧ ab.2 < 3 := by
  decide

theorem mem_inner {p : Nat → V} {w : Nat → ℚ} (light : ∀ v < 3, w v ≤ 1 / 2)
    (total : ∑ v ∈ range 3, w v = 1) :
    ∑ v ∈ range 3, w v • p v ∈ convexHull ℚ (midpoints p [(0, 1), (0, 2), (1, 2)]) := by
  have light0 := light 0 (by decide)
  have light1 := light 1 (by decide)
  have light2 := light 2 (by decide)
  simp only [sum_range_succ, range_zero, sum_empty, zero_add] at total ⊢
  have rest : w 2 = 1 - w 0 - w 1 := by linarith
  refine mem_midpoints [(1 - 2 * w 2, 0, 1), (1 - 2 * w 1, 0, 2), (1 - 2 * w 0, 1, 2)] ?_ ?_ ?_
  · simp only [List.forall_mem_cons, List.not_mem_nil, false_implies, implies_true, and_true]
    refine ⟨?_, ?_, ?_⟩ <;> linarith
  · simp only [List.map_cons, List.map_nil, List.sum_cons, List.sum_nil]
    linarith
  · simp only [List.map_cons, List.map_nil, List.sum_cons, List.sum_nil, midpoint_eq_smul_add,
      invOf_eq_inv, rest]
    module

theorem mem_hull_three_iff {p : Nat → V} {x : V} :
    x ∈ hull 3 p ↔ ∃ pairs ∈ triangleParts, x ∈ convexHull ℚ (midpoints p pairs) :=
  mem_hull_iff_of_inner triangleParts_lt (by decide) fun _ _ light total =>
    ⟨[(0, 1), (0, 2), (1, 2)], by decide, mem_inner light total⟩

/-! ## Tetrahedra -/

/-- The four parts of the octahedron have the edge from `ac` to `bd` in common. -/
def octant (a b c d : Nat) : List (Nat × Nat) := [(a, b), (a, c), (a, d), (b, d)]

def tetParts : List (List (Nat × Nat)) :=
  [cap 4 0, cap 4 1, cap 4 2, cap 4 3,
    octant 0 1 2 3, octant 1 0 3 2, octant 2 3 0 1, octant 3 2 1 0]

theorem tetParts_lt : ∀ pairs ∈ tetParts, ∀ ab ∈ pairs, ab.1 < 4 ∧ ab.2 < 4 := by
  decide

theorem mem_octant {p : Nat → V} {w : Nat → ℚ} {a b c d : Nat} {x : V}
    (hx : w a • p a + w b • p b + w c • p c + w d • p d = x) (total : w a + w b + w c + w d = 1)
    (light : w a ≤ 1 / 2) (nonneg : 0 ≤ w c) (hab : 1 / 2 ≤ w a + w b) (had : 1 / 2 ≤ w a + w d) :
    x ∈ convexHull ℚ (midpoints p (octant a b c d)) := by
  refine mem_midpoints [(2 * (w a + w b) - 1, a, b), (2 * w c, a, c), (2 * (w a + w d) - 1, a, d),
    (1 - 2 * w a, b, d)] ?_ ?_ ?_
  · simp only [List.forall_mem_cons, List.not_mem_nil, false_implies, implies_true, and_true]
    refine ⟨?_, ?_, ?_, ?_⟩ <;> linarith
  · simp only [List.map_cons, List.map_nil, List.sum_cons, List.sum_nil]
    linarith
  · have rest : w c = 1 - w a - w b - w d := by linarith
    rw [← hx]
    simp only [List.map_cons, List.map_nil, List.sum_cons, List.sum_nil, midpoint_eq_smul_add,
      invOf_eq_inv, rest]
    module

/-- Of two edges opposite to each other one has half of the weight, and two such choices
lead to the part that contains the point. -/
theorem exists_mem_octant {p : Nat → V} {w : Nat → ℚ} (nonneg : ∀ v < 4, 0 ≤ w v)
    (light : ∀ v < 4, w v ≤ 1 / 2) (total : ∑ v ∈ range 4, w v = 1) :
    ∃ pairs ∈ tetParts, ∑ v ∈ range 4, w v • p v ∈ convexHull ℚ (midpoints p pairs) := by
  simp only [sum_range_succ, range_zero, sum_empty, zero_add] at total ⊢
  rcases le_total (1 / 2) (w 0 + w 1) with edge01 | edge23 <;>
    rcases le_total (1 / 2) (w 0 + w 3) with edge03 | edge12
  · exact ⟨octant 0 1 2 3, by decide, mem_octant rfl total (light 0 (by decide))
      (nonneg 2 (by decide)) edge01 edge03⟩
  · exact ⟨octant 1 0 3 2, by decide, mem_octant (by abel) (by linarith) (light 1 (by decide))
      (nonneg 3 (by decide)) (by linarith) (by linarith)⟩
  · exact ⟨octant 3 2 1 0, by decide, mem_octant (by abel) (by linarith) (light 3 (by decide))
      (nonneg 1 (by decide)) (by linarith) (by linarith)⟩
  · exact ⟨octant 2 3 0 1, by decide, mem_octant (by abel) (by linarith) (light 2 (by decide))
      (nonneg 0 (by decide)) (by linarith) (by linarith)⟩

theorem mem_hull_four_iff {p : Nat → V} {x : V} :
    x ∈ hull 4 p ↔ ∃ pairs ∈ tetParts, x ∈ convexHull ℚ (midpoints p pairs) :=
  mem_hull_iff_of_inner tetParts_lt (by decide) fun _ => exists_mem_octant

/-! ## Interiors -/

section

variable [TopologicalSpace V] [ContinuousAdd V] [ContinuousSMul ℚ V]
  {f : V →ₗ[ℚ] ℚ} {c : ℚ} {s t : Set V}

/-- Where a set touches a plane but does not lie in it, it has no inner points: the way
from a point off the plane would go on behind it. -/
theorem lt_of_mem_intrinsicInterior {a x : V} (below : ∀ y ∈ s, f y ≤ c) (ha : a ∈ s)
    (less : f a < c) (hx : x ∈ intrinsicInterior ℚ s) : f x < c := by
  obtain ⟨x, inner, rfl⟩ := mem_intrinsicInterior.mp hx
  let way (r : ℚ) : affineSpan ℚ s :=
    ⟨AffineMap.lineMap a (x : V) r, AffineMap.lineMap_mem r (subset_affineSpan ℚ s ha) x.2⟩
  have continuous : Continuous way := by
    have straight : Continuous fun r : ℚ => r • ((x : V) - a) + a := by fun_prop
    exact straight.subtype_mk fun r => (way r).2
  have arrives : way 1 = x := Subtype.ext (AffineMap.lineMap_apply_one a (x : V))
  have near : ∀ᶠ r in nhds 1, (way r : V) ∈ s :=
    (continuous.tendsto' 1 x arrives).eventually (mem_interior_iff_mem_nhds.mp inner)
  obtain ⟨r, inside, further⟩ :=
    ((near.filter_mono nhdsWithin_le_nhds).and (self_mem_nhdsWithin (s := Set.Ioi 1))).exists
  have value : f (way r) = r * (f x - f a) + f a := by
    change f (AffineMap.lineMap a (x : V) r) = _
    rw [AffineMap.lineMap_apply_module', map_add, map_smul, map_sub, smul_eq_mul]
  by_contra! high
  have climbs : f x - f a < r * (f x - f a) := lt_mul_of_one_lt_left (by linarith) further
  have := below _ inside
  linarith

theorem disjoint_intrinsicInterior {a : V} (below : ∀ y ∈ s, f y ≤ c) (ha : a ∈ s)
    (less : f a < c) (above : ∀ y ∈ t, c ≤ f y) :
    Disjoint (intrinsicInterior ℚ (convexHull ℚ s)) (intrinsicInterior ℚ (convexHull ℚ t)) := by
  have below' : ∀ y ∈ convexHull ℚ s, f y ≤ c := fun y hy =>
    convexHull_min below (convex_halfSpace_le f.isLinear c) hy
  have above' : ∀ y ∈ convexHull ℚ t, c ≤ f y := fun y hy =>
    convexHull_min above (convex_halfSpace_ge f.isLinear c) hy
  rw [Set.disjoint_left]
  intro x hx hx'
  have low := lt_of_mem_intrinsicInterior below' (subset_convexHull ℚ s ha) less hx
  exact low.not_ge (above' x (intrinsicInterior_subset hx'))

end

end MeshCurve
