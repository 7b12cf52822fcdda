import MeshCurve.Cell.Tet
import MeshCurve.Proofs.Cell.KuhnCurve
import Mathlib.Tactic.IntervalCases

/-!
# The curve of tetrahedra

The tables of tetrahedra are consistent.  In units of its own edges a tet with corner
`(p, q, r)` lies in the root if `0 ≤ q ≤ r ≤ p`, where either of the inner inequalities
is strict if the tet walks along the lesser coordinate first.
-/

namespace MeshCurve.Tet

open Kuhn (Link LawfulKuhn KuhnElement Rooted KuhnRoot)

instance : LawfulKuhn Tet where
  depth_le := by decide
  dimension_le := by decide
  length_coords _ := rfl
  ext {a b} anchors types levels := by
    obtain ⟨x, y, z, type, level⟩ := a
    obtain ⟨x', y', z', type', level'⟩ := b
    simp_all [Kuhn.coords, Kuhn.type, Kuhn.level]
  coords_mapCoords _ _ := rfl
  type_mapCoords _ _ := rfl
  level_mapCoords _ _ := rfl
  coords_retype _ _ _ := rfl
  type_retype _ _ _ := rfl
  level_retype _ _ _ := rfl
  link_down := by decide +kernel
  link_up := by decide +kernel
  link_first := by decide +kernel

instance : KuhnElement Tet where
  shape_eq := rfl
  root_eq := rfl
  level_eq _ := rfl
  parent_eq := rfl
  child_eq := rfl
  childId_eq := rfl
  ancestor_eq := rfl
  isFamily_eq := rfl
  linearId_eq := rfl
  ofLinearId_eq := rfl
  successor_eq := rfl
  firstDescendant_eq := rfl
  valid_iff _ := Iff.rfl

/-! ## Corners -/

/-- Whether a vertex lies beyond the anchor along an axis. -/
def offset (type : Nat) : (v axis : Nat) → Int
  | 0, _ => 0
  | 1, axis => if axis = firstAxis type then 1 else 0
  | 2, axis => if axis = firstAxis type ∨ axis = secondAxis type then 1 else 0
  | _, _ => 1

def corner (e : Tet) (v : Nat) : Int × Int × Int :=
  (e.x + offset e.type v 0 * 2 ^ (depth - e.level),
    e.y + offset e.type v 1 * 2 ^ (depth - e.level),
    e.z + offset e.type v 2 * 2 ^ (depth - e.level))

def Within (p : Int × Int × Int) : Prop :=
  0 ≤ p.2.1 ∧ p.2.1 ≤ p.2.2 ∧ p.2.2 ≤ p.1 ∧ p.1 ≤ rootLen

instance (p : Int × Int × Int) : Decidable (Within p) := inferInstanceAs (Decidable (_ ∧ _))

variable {e : Tet}

theorem Valid.aligned_axes (he : Kuhn.Valid e) : Coord.Aligned e.x (depth - e.level) ∧
    Coord.Aligned e.y (depth - e.level) ∧ Coord.Aligned e.z (depth - e.level) :=
  ⟨he.aligned e.x (by simp [Kuhn.coords]), he.aligned e.y (by simp [Kuhn.coords]),
    he.aligned e.z (by simp [Kuhn.coords])⟩

theorem vertex_eq_ok_iff (he : Kuhn.Valid e) {v : Nat} (hv : v < 4) {p : Int × Int × Int} :
    e.vertex v = .ok p ↔
      p = e.corner v ∧ IsCoordinate p.1 ∧ IsCoordinate p.2.1 ∧ IsCoordinate p.2.2 := by
  obtain ⟨⟨fitX, _⟩, ⟨fitY, _⟩, fitZ, _⟩ := Valid.aligned_axes he
  have edge : e.edgeLen = .ok (2 ^ (depth - e.level)) := Coord.cellLen_eq (by decide) he.1
  have ht : e.type < 6 := he.2.1
  obtain ⟨a, b, c⟩ := p
  obtain ⟨x, y, z, type, level⟩ := e
  simp only at fitX fitY fitZ ht edge
  interval_cases v <;> interval_cases type <;>
    simp only [vertex, edge, ok_bind, pure_eq_ok, bind_eq_ok_iff, ↓reduceIte,
      coordinate_eq_ok_iff, corner, offset, shift, anchor, firstAxis, secondAxis, one_ne_zero,
      Nat.reduceAdd, Nat.reduceDiv, Nat.reduceMod] <;>
    grind

theorem offset_unit : ∀ t < 6, ∀ v < 4, ∀ axis < 3, -1 ≤ offset t v axis ∧ offset t v axis ≤ 1 := by
  decide

theorem vertex_of_within (he : Kuhn.Valid e) (h : Within (e.corner 0)) {v : Nat} (hv : v < 4) :
    e.vertex v = .ok (e.corner v) := by
  have step := offset_unit e.type he.2.1 v hv
  simp only [Within, corner, offset, Int.zero_mul, Int.add_zero] at h
  obtain ⟨lower, yz, zx, upper⟩ := h
  have nearX : Coord.Near e.x depth := .of_cube ⟨lower.trans (yz.trans zx), upper⟩
  have nearY : Coord.Near e.y depth := .of_cube ⟨lower, yz.trans (zx.trans upper)⟩
  have nearZ : Coord.Near e.z depth := .of_cube ⟨lower.trans yz, zx.trans upper⟩
  exact (vertex_eq_ok_iff he hv).mpr ⟨rfl,
    nearX.isCoordinate_add (by decide) (Nat.sub_le _ _) (step 0 (by decide)),
    nearY.isCoordinate_add (by decide) (Nat.sub_le _ _) (step 1 (by decide)),
    nearZ.isCoordinate_add (by decide) (Nat.sub_le _ _) (step 2 (by decide))⟩

theorem isInsideRoot_within (he : Kuhn.Valid e) :
    Decides e.isInsideRoot (∀ v ∈ List.range 4, Within (e.corner v)) := by
  obtain ⟨⟨fitX, _⟩, ⟨fitY, _⟩, fitZ, _⟩ := Valid.aligned_axes he
  have first : e.vertex 0 = .ok (e.corner 0) :=
    (vertex_eq_ok_iff he (by decide)).mpr
      ⟨rfl, by simpa [corner, offset] using ⟨fitX, fitY, fitZ⟩⟩
  exact Kuhn.decides_allM_vertices first fun h v hv => vertex_of_within he h hv

/-! ## Tetrahedra in the root -/

/-- One if a tet walks along `y` before `z`. -/
def lagZ (type : Nat) : Nat := if 1 ≤ type ∧ type ≤ 3 then 1 else 0

/-- One if a tet walks along `z` before `x`. -/
def lagX (type : Nat) : Nat := if 3 ≤ type then 1 else 0

def Inside (type : Nat) (p q r m : Int) : Prop :=
  0 ≤ q ∧ q + lagZ type ≤ r ∧ r + lagX type ≤ p ∧ p < m

theorem within_mul_iff (p q r : Int) {m : Int} {k : Nat} (h : rootLen = m * 2 ^ k) :
    Within (p * 2 ^ k, q * 2 ^ k, r * 2 ^ k) ↔ 0 ≤ q ∧ q ≤ r ∧ r ≤ p ∧ p ≤ m := by
  rw [Within, h, Coord.mul_two_pow_nonneg_iff, Coord.mul_two_pow_le_iff, Coord.mul_two_pow_le_iff,
    Coord.mul_two_pow_le_iff]

theorem corner_eq (he : Kuhn.Valid e) (v : Nat) :
    e.corner v =
      ((e.x / 2 ^ (depth - e.level) + offset e.type v 0) * 2 ^ (depth - e.level),
        (e.y / 2 ^ (depth - e.level) + offset e.type v 1) * 2 ^ (depth - e.level),
        (e.z / 2 ^ (depth - e.level) + offset e.type v 2) * 2 ^ (depth - e.level)) := by
  obtain ⟨alignedX, alignedY, alignedZ⟩ := Valid.aligned_axes he
  rw [corner, alignedX.add_mul, alignedY.add_mul, alignedZ.add_mul]

theorem forall_within_iff (he : Kuhn.Valid e) :
    (∀ v ∈ List.range 4, Within (e.corner v)) ↔
      Inside e.type (e.x / 2 ^ (depth - e.level)) (e.y / 2 ^ (depth - e.level))
        (e.z / 2 ^ (depth - e.level)) (2 ^ e.level) := by
  have ht : e.type < 6 := he.2.1
  have vertices : List.range 4 = [0, 1, 2, 3] := rfl
  have whole : rootLen = 2 ^ e.level * 2 ^ (depth - e.level) := Coord.two_pow_eq_mul he.1
  simp only [corner_eq he, within_mul_iff _ _ _ whole, vertices,
    List.forall_mem_cons, Inside, List.not_mem_nil, false_implies, implies_true]
  generalize (2 : Int) ^ e.level = m
  generalize e.type = t at ht
  interval_cases t <;> simp [offset, firstAxis, secondAxis, lagZ, lagX] <;> omega

instance : Rooted Tet where
  Inside
    | t, [p, q, r], m => Inside t p q r m
    | _, _, _ => False

theorem inside_child_iff {t i cube t' : Nat} (hcube : cube < 8) (ht' : t' < 6)
    (link : Link Tet t i cube t') (p q r m : Int) :
    Inside t' ((2 : Int) * p + (cube >>> 0 % 2 : Nat)) ((2 : Int) * q + (cube >>> 1 % 2 : Nat))
      ((2 : Int) * r + (cube >>> 2 % 2 : Nat)) (2 * m) ↔ Inside t p q r m := by
  have up := link.2.1
  unfold Inside
  interval_cases cube <;> interval_cases t' <;> cases up <;> simp [lagZ, lagX] <;> omega

instance : KuhnRoot Tet where
  coords_root := rfl
  type_root := rfl
  level_root := rfl
  isInsideRoot_decides he := (isInsideRoot_within he).congr (forall_within_iff he)
  inside_child_iff {t i cube t' cell m} hcube ht' link size := by
    obtain ⟨p, q, r, rfl⟩ := List.length_eq_three.mp size
    exact inside_child_iff hcube ht' link p q r m
  inside_one_iff {t cell} ht size := by
    obtain ⟨p, q, r, rfl⟩ := List.length_eq_three.mp size
    have ht : t < 6 := ht
    simp only [Rooted.Inside, Inside, lagX, lagZ, List.forall_mem_cons, List.not_mem_nil,
      false_implies, implies_true, and_true]
    interval_cases t <;> simp <;> omega

end MeshCurve.Tet
