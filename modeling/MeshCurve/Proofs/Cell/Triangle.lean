import MeshCurve.Cell.Triangle
import MeshCurve.Proofs.Cell.KuhnCurve
import Mathlib.Tactic.IntervalCases

/-!
# The curve of triangles

The tables of triangles are consistent.  In units of its own legs a triangle with
corner `(p, q)` lies in the root if `0 ≤ q ≤ p` for type 0 and `0 ≤ q < p` for
type 1, and this holds of a child exactly when it holds of its parent.
-/

namespace MeshCurve.Triangle

open Kuhn (Link LawfulKuhn KuhnElement Rooted KuhnRoot)

instance : LawfulKuhn Triangle where
  depth_le := by decide
  dimension_le := by decide
  length_coords _ := rfl
  ext {a b} anchors types levels := by
    obtain ⟨x, y, type, level⟩ := a
    obtain ⟨x', y', type', level'⟩ := b
    simp_all [Kuhn.coords, Kuhn.type, Kuhn.level]
  coords_mapCoords _ _ := rfl
  type_mapCoords _ _ := rfl
  level_mapCoords _ _ := rfl
  coords_retype _ _ _ := rfl
  type_retype _ _ _ := rfl
  level_retype _ _ _ := rfl
  link_down := by decide +kernel
  link_up := by decide +kernel
  link_first := by decide +kernel

instance : KuhnElement Triangle where
  shape_eq := rfl
  root_eq := rfl
  level_eq _ := rfl
  parent_eq := rfl
  child_eq := rfl
  childId_eq := rfl
  ancestor_eq := rfl
  isFamily_eq := rfl
  linearId_eq := rfl
  ofLinearId_eq := rfl
  successor_eq := rfl
  firstDescendant_eq := rfl
  valid_iff _ := Iff.rfl

/-! ## Corners -/

/-- Steps along the legs from the anchor to a vertex. -/
def offset (type : Nat) : (v : Nat) → Int × Int
  | 0 => (0, 0)
  | 1 => if type = 0 then (1, 0) else (0, 1)
  | _ => (1, 1)

def corner (e : Triangle) (v : Nat) : Int × Int :=
  (e.x + (offset e.type v).1 * 2 ^ (depth - e.level),
    e.y + (offset e.type v).2 * 2 ^ (depth - e.level))

def Within (p : Int × Int) : Prop := 0 ≤ p.2 ∧ p.2 ≤ p.1 ∧ p.1 ≤ rootLen

instance (p : Int × Int) : Decidable (Within p) := inferInstanceAs (Decidable (_ ∧ _))

variable {e : Triangle}

theorem Valid.aligned_axes (he : Kuhn.Valid e) : Coord.Aligned e.x (depth - e.level) ∧
    Coord.Aligned e.y (depth - e.level) :=
  forall_mem_pair.mp he.aligned

theorem vertex_eq_ok_iff (he : Kuhn.Valid e) (v : Nat) {p : Int × Int} :
    e.vertex v = .ok p ↔ p = e.corner v ∧ IsCoordinate p.1 ∧ IsCoordinate p.2 := by
  obtain ⟨⟨fitX, _⟩, fitY, _⟩ := Valid.aligned_axes he
  have edge : e.edgeLen = .ok (2 ^ (depth - e.level)) := Coord.cellLen_eq (by decide) he.1
  have ht : e.type < 2 := he.2.1
  obtain ⟨a, b⟩ := p
  obtain ⟨x, y, type, level⟩ := e
  simp only at fitX fitY ht edge
  -- The anchor fits its words, so a vertex fails only where a sum leaves them.
  match v with
  | 0 | 1 | _ + 2 =>
      interval_cases type <;>
        simp only [vertex, edge, ok_bind, pure_eq_ok, bind_eq_ok_iff, ↓reduceIte,
          coordinate_eq_ok_iff, corner, offset, one_ne_zero] <;>
        grind

theorem offset_unit : ∀ t < 2, ∀ v < 3, (-1 ≤ (offset t v).1 ∧ (offset t v).1 ≤ 1) ∧
    -1 ≤ (offset t v).2 ∧ (offset t v).2 ≤ 1 := by
  decide

theorem vertex_of_within (he : Kuhn.Valid e) (h : Within (e.corner 0)) {v : Nat} (hv : v < 3) :
    e.vertex v = .ok (e.corner v) := by
  obtain ⟨stepX, stepY⟩ := offset_unit e.type he.2.1 v hv
  simp only [Within, corner, offset, Int.zero_mul, Int.add_zero] at h
  have nearX : Coord.Near e.x depth := .of_cube ⟨h.1.trans h.2.1, h.2.2⟩
  have nearY : Coord.Near e.y depth := .of_cube ⟨h.1, h.2.1.trans h.2.2⟩
  exact (vertex_eq_ok_iff he v).mpr ⟨rfl, nearX.isCoordinate_add (by decide) (Nat.sub_le _ _) stepX,
    nearY.isCoordinate_add (by decide) (Nat.sub_le _ _) stepY⟩

theorem isInsideRoot_within (he : Kuhn.Valid e) :
    Decides e.isInsideRoot (∀ v ∈ List.range 3, Within (e.corner v)) := by
  obtain ⟨⟨fitX, _⟩, fitY, _⟩ := Valid.aligned_axes he
  have first : e.vertex 0 = .ok (e.corner 0) :=
    (vertex_eq_ok_iff he 0).mpr ⟨rfl, by simpa [corner, offset] using ⟨fitX, fitY⟩⟩
  exact Kuhn.decides_allM_vertices first fun h v hv => vertex_of_within he h hv

/-! ## Triangles in the root -/

def Inside (type : Nat) (p q m : Int) : Prop := 0 ≤ q ∧ q + type ≤ p ∧ p < m

theorem within_mul_iff (p q : Int) {m : Int} {k : Nat} (h : rootLen = m * 2 ^ k) :
    Within (p * 2 ^ k, q * 2 ^ k) ↔ 0 ≤ q ∧ q ≤ p ∧ p ≤ m := by
  rw [Within, h, Coord.mul_two_pow_nonneg_iff, Coord.mul_two_pow_le_iff, Coord.mul_two_pow_le_iff]

theorem corner_eq (he : Kuhn.Valid e) (v : Nat) :
    e.corner v =
      ((e.x / 2 ^ (depth - e.level) + (offset e.type v).1) * 2 ^ (depth - e.level),
        (e.y / 2 ^ (depth - e.level) + (offset e.type v).2) * 2 ^ (depth - e.level)) := by
  obtain ⟨alignedX, alignedY⟩ := Valid.aligned_axes he
  rw [corner, alignedX.add_mul, alignedY.add_mul]

theorem forall_within_iff (he : Kuhn.Valid e) :
    (∀ v ∈ List.range 3, Within (e.corner v)) ↔
      Inside e.type (e.x / 2 ^ (depth - e.level)) (e.y / 2 ^ (depth - e.level)) (2 ^ e.level) := by
  have types : e.type = 0 ∨ e.type = 1 := by
    have : e.type < 2 := he.2.1
    omega
  have vertices : List.range 3 = [0, 1, 2] := rfl
  have whole : rootLen = 2 ^ e.level * 2 ^ (depth - e.level) := Coord.two_pow_eq_mul he.1
  simp only [corner_eq he, within_mul_iff _ _ whole, vertices, List.forall_mem_cons,
    Inside, List.not_mem_nil, false_implies, implies_true]
  generalize (2 : Int) ^ e.level = m
  rcases types with ht | ht
  · simp [ht, offset]
    omega
  · simp [ht, offset]
    omega

instance : Rooted Triangle where
  Inside
    | t, [p, q], m => Inside t p q m
    | _, _, _ => False

theorem inside_child_iff {t i cube t' : Nat} (hcube : cube < 4) (ht' : t' < 2)
    (link : Link Triangle t i cube t') (p q m : Int) :
    Inside t' ((2 : Int) * p + (cube >>> 0 % 2 : Nat)) ((2 : Int) * q + (cube >>> 1 % 2 : Nat))
      (2 * m) ↔ Inside t p q m := by
  have up := link.2.1
  unfold Inside
  interval_cases cube <;> interval_cases t' <;> cases up <;> omega

instance : KuhnRoot Triangle where
  coords_root := rfl
  type_root := rfl
  level_root := rfl
  isInsideRoot_decides he := (isInsideRoot_within he).congr (forall_within_iff he)
  inside_child_iff {t i cube t' cell m} hcube ht' link size := by
    obtain ⟨p, q, rfl⟩ := List.length_eq_two.mp size
    exact inside_child_iff hcube ht' link p q m
  inside_one_iff {t cell} ht size := by
    obtain ⟨p, q, rfl⟩ := List.length_eq_two.mp size
    have ht : t < 2 := ht
    simp only [Rooted.Inside, Inside, List.forall_mem_cons, List.not_mem_nil, false_implies,
      implies_true, and_true]
    omega

end MeshCurve.Triangle
