import MeshCurve.Proofs.Grid.Conformity
import MeshCurve.Proofs.Grid.Hulls

/-!
# Red refinement

The vertices of the children of a simplex are its vertices and the midpoints of its edges.
So the children are its parts if it is cut at these midpoints: they cover it, and between
any two of them lies a plane.
-/

namespace MeshCurve

abbrev Point := ℚ × ℚ × ℚ

def toPoint (p : Int × Int × Int) : Point := (p.1, p.2.1, p.2.2)

theorem toPoint_add (p q : Int × Int × Int) : toPoint (p + q) = toPoint p + toPoint q := by
  simp [toPoint]

theorem toPoint_smul (k : Int) (p : Int × Int × Int) : toPoint (k • p) = (k : ℚ) • toPoint p := by
  simp [toPoint]

/-! ## Planes -/

/-- The points of one height lie on a plane with the normal `n`. -/
def height (n : Int × Int × Int) : Point →ₗ[ℚ] ℚ :=
  (n.1 : ℚ) • .fst ℚ ℚ (ℚ × ℚ) + (n.2.1 : ℚ) • (.fst ℚ ℚ ℚ ∘ₗ .snd ℚ ℚ (ℚ × ℚ)) +
    (n.2.2 : ℚ) • (.snd ℚ ℚ ℚ ∘ₗ .snd ℚ ℚ (ℚ × ℚ))

/-- The height of a point with whole coordinates. -/
def wholeHeight (n p : Int × Int × Int) : Int := n.1 * p.1 + n.2.1 * p.2.1 + n.2.2 * p.2.2

theorem height_toPoint (n p : Int × Int × Int) : height n (toPoint p) = wholeHeight n p := by
  simp [height, toPoint, wholeHeight]

/-- The normals of the planes on which faces of simplices lie. -/
def normals : List (Int × Int × Int) :=
  [(1, 0, 0), (0, 1, 0), (0, 0, 1), (1, -1, 0), (-1, 1, 0), (1, 0, -1), (-1, 0, 1), (0, 1, -1),
    (0, -1, 1)]

/-- No point of `xs` is above the plane of height one, some are below, and no point of
`ys` is below. -/
def Splits (n : Int × Int × Int) (xs ys : List (Int × Int × Int)) : Prop :=
  (∀ x ∈ xs, wholeHeight n x ≤ 1) ∧ (∃ x ∈ xs, wholeHeight n x < 1) ∧
    ∀ y ∈ ys, 1 ≤ wholeHeight n y

instance (n : Int × Int × Int) (xs ys : List (Int × Int × Int)) : Decidable (Splits n xs ys) :=
  inferInstanceAs (Decidable (_ ∧ _ ∧ _))

/-! ## Patterns -/

namespace Pattern

variable {V : Type} [AddCommGroup V]

/-- The vertices of a child, seen from the corner of its parent. -/
def childVertices (p : Pattern V) (s : Shape) (vertexOf : (type vertex : Nat) → V)
    (t i : Nat) : List V :=
  (List.range s.numVertices).map fun v => (p.child t i).corner + vertexOf (p.child t i).type v

/-- The vertices of a child lie halfway between the vertices of the `pairs`. -/
def IsPart (p : Pattern V) (s : Shape) (vertexOf : (type vertex : Nat) → V) (t i : Nat)
    (pairs : List (Nat × Nat)) : Prop :=
  (p.childVertices s vertexOf t i).Perm (pairs.map fun ab => vertexOf t ab.1 + vertexOf t ab.2)

instance [DecidableEq V] (p : Pattern V) (s : Shape) (vertexOf : (type vertex : Nat) → V)
    (t i : Nat) (pairs : List (Nat × Nat)) : Decidable (p.IsPart s vertexOf t i pairs) :=
  inferInstanceAs (Decidable (List.Perm _ _))

/-- The children of a cell are the parts of a simplex, in some order, and there is a plane
between any two of them. -/
@[mk_iff]
structure CutsInto (p : Pattern V) (s : Shape) (vertexOf : (type vertex : Nat) → V)
    (unit : V → Int × Int × Int) (parts : List (List (Nat × Nat))) : Prop where
  child_is_part : ∀ t < s.numTypes, ∀ i < s.numChildren, ∃ pairs ∈ parts,
    p.IsPart s vertexOf t i pairs
  part_is_child : ∀ t < s.numTypes, ∀ pairs ∈ parts, ∃ i < s.numChildren,
    p.IsPart s vertexOf t i pairs
  plane_between : ∀ t < s.numTypes, ∀ i < s.numChildren, ∀ j < s.numChildren, i ≠ j →
    ∃ n ∈ normals,
      Splits n ((p.childVertices s vertexOf t i).map unit)
        ((p.childVertices s vertexOf t j).map unit) ∨
      Splits n ((p.childVertices s vertexOf t j).map unit)
        ((p.childVertices s vertexOf t i).map unit)

set_option synthInstance.maxSize 1000 in
instance [DecidableEq V] (p : Pattern V) (s : Shape) (vertexOf : (type vertex : Nat) → V)
    (unit : V → Int × Int × Int) (parts : List (List (Nat × Nat))) :
    Decidable (p.CutsInto s vertexOf unit parts) :=
  decidable_of_iff _ (p.cutsInto_iff s vertexOf unit parts).symm

end Pattern

/-! ## Bodies -/

namespace Element

variable {E : Type} [Element E]

def vertices (e : E) : Set Point :=
  {q | ∃ v < (shape E).numVertices, ∃ p, vertexCoords e v = .ok p ∧ toPoint p = q}

/-- The points of a simplex, its boundary included. -/
def body (e : E) : Set Point := convexHull ℚ (vertices e)

/-- How red refinement cuts a simplex. -/
class Cut (E : Type) [Grid E] where
  /-- pairs of vertices, with the vertices of the parts halfway between them -/
  parts : List (List (Nat × Nat))

export Cut (parts)

/-- What a shape has to prove about how it is refined. -/
class LawfulCut (E : Type) [Element E] [Anchored E] [Grid E] [Axial (Corner E)] [Cornered E]
    [Cut E] : Prop extends LawfulCornered E where
  parts_lt : ∀ pairs ∈ parts E, ∀ ab ∈ pairs, ab.1 < (shape E).numVertices ∧
    ab.2 < (shape E).numVertices
  mem_hull_iff {p : Nat → Point} {x : Point} : x ∈ hull (shape E).numVertices p ↔
    ∃ pairs ∈ parts E, x ∈ convexHull ℚ (midpoints p pairs)
  cutsInto : (pattern E).CutsInto (shape E) vertexOf (unit (E := E)) (parts E)

export LawfulCut (parts_lt mem_hull_iff cutsInto)

section

variable [Anchored E] [Grid E] [Axial (Corner E)] [Cornered E] [Cut E] [LawfulCut E] {e c d : E}
  {l i j v : Nat}

/-- The place of a corner of the cells on a level. -/
def place (l : Nat) (a : Corner E) : Point := toPoint (point (E := E) l a)

/-- The place of a vertex of a cell. -/
def vertexPlace (e : E) (l v : Nat) : Point :=
  place (E := E) l ((site e).corner + vertexOf (site e).type v)

theorem exists_vertexCoords (he : Valid e) (hl : level e = .ok l) (cube : InCube e)
    (hv : v < (shape E).numVertices) :
    ∃ p, vertexCoords e v = .ok p ∧ toPoint p = vertexPlace e l v := by
  rw [numVertices_eq] at hv
  have fits := representable_of_near he hl (near_of_inCube cube) hv
  exact ⟨_, (vertexCoords_eq_ok_iff he hl hv).mpr ⟨rfl, fits⟩, rfl⟩

theorem vertices_eq (he : Valid e) (hl : level e = .ok l) (cube : InCube e) :
    vertices e = {q | ∃ v < (shape E).numVertices, vertexPlace e l v = q} := by
  ext q
  refine exists_congr fun v => and_congr_right fun hv => ?_
  obtain ⟨p, hp, place⟩ := exists_vertexCoords he hl cube hv
  constructor
  · rintro ⟨p', hp', rfl⟩
    cases hp.symm.trans hp'
    exact place.symm
  · rintro rfl
    exact ⟨p, hp, place⟩

theorem body_eq_hull (he : Valid e) (hl : level e = .ok l) (cube : InCube e) :
    body e = hull (shape E).numVertices (vertexPlace e l) := by
  rw [body, vertices_eq he hl cube, hull]

/-! ## Children -/

theorem place_add (l : Nat) (a b : Corner E) :
    place (E := E) l (a + b) = place (E := E) l a + place (E := E) l b := by
  simp only [place, point_eq_smul, map_add, smul_add, toPoint_add]

theorem place_eq_two_smul (hlt : l < finest E) (a : Corner E) :
    place (E := E) l a = (2 : ℚ) • place (E := E) (l + 1) a := by
  have scale : (2 : Int) ^ (finest E - l) = 2 * 2 ^ (finest E - (l + 1)) := by
    rw [← pow_succ']
    congr 1
    omega
  rw [place, place, point_eq_smul, point_eq_smul (l + 1), scale, mul_smul, toPoint_smul]
  rfl

theorem place_add_eq_midpoint (hlt : l < finest E) (q a b : Corner E) :
    place (E := E) (l + 1) (q + q + (a + b)) =
      midpoint ℚ (place (E := E) l (q + a)) (place (E := E) l (q + b)) := by
  simp only [place_eq_two_smul hlt, place_add, midpoint_eq_smul_add, invOf_eq_inv]
  module

theorem vertices_child (he : Valid e) (hl : level e = .ok l) (cube : InCube e)
    (hc : child e i = .ok c) :
    vertices c = {q | ∃ a ∈ (pattern E).childVertices (shape E) vertexOf (site e).type i,
      place (E := E) (l + 1) ((site e).corner + (site e).corner + a) = q} := by
  obtain ⟨_, hi⟩ := bounds_of_child hc hl
  have levelC := (Descends.single hi hc).level hl
  rw [vertices_eq (of_child he hc).1 levelC (inCube_child he cube hc)]
  ext q
  simp only [Set.mem_ofPred_eq, Pattern.childVertices, List.mem_map, exists_exists_and_eq_and,
    List.mem_range, vertexPlace, site_child he hc, Site.zoom, add_assoc]

theorem vertices_child_eq_midpoints {pairs : List (Nat × Nat)} (he : Valid e)
    (hl : level e = .ok l) (cube : InCube e) (hc : child e i = .ok c)
    (halfway : (pattern E).IsPart (shape E) vertexOf (site e).type i pairs) :
    vertices c = midpoints (vertexPlace e l) pairs := by
  obtain ⟨hlt, _⟩ := bounds_of_child hc hl
  rw [vertices_child he hl cube hc]
  ext q
  simp only [Set.mem_ofPred_eq, List.Perm.mem_iff halfway, List.mem_map, exists_exists_and_eq_and,
    midpoints, place_add_eq_midpoint hlt, vertexPlace]

/-- Every child is a part of the simplex, and every part a child. -/
theorem mem_body_iff {x : Point} (he : Valid e) (hl : level e = .ok l) (hlt : l < finest E)
    (cube : InCube e) :
    x ∈ body e ↔ ∃ i < branching E, ∃ c, child e i = .ok c ∧ x ∈ body c := by
  rw [body_eq_hull he hl cube, mem_hull_iff]
  constructor
  · rintro ⟨pairs, part, hx⟩
    obtain ⟨i, hi, halfway⟩ := cutsInto.part_is_child _ (type_lt he) pairs part
    obtain ⟨c, hc, _⟩ := child_of_valid he hl hlt hi
    refine ⟨i, hi, c, hc, ?_⟩
    rwa [body, vertices_child_eq_midpoints he hl cube hc halfway]
  · rintro ⟨i, hi, c, hc, hx⟩
    obtain ⟨pairs, part, halfway⟩ := cutsInto.child_is_part _ (type_lt he) i hi
    rw [body, vertices_child_eq_midpoints he hl cube hc halfway] at hx
    exact ⟨pairs, part, hx⟩

theorem vertex_or_midpoint {q : Point} (he : Valid e) (hl : level e = .ok l) (cube : InCube e)
    (hc : child e i = .ok c) (hq : q ∈ vertices c) :
    q ∈ vertices e ∨ ∃ a ∈ vertices e, ∃ b ∈ vertices e, a ≠ b ∧ q = midpoint ℚ a b := by
  obtain ⟨_, hi⟩ := bounds_of_child hc hl
  obtain ⟨pairs, part, halfway⟩ := cutsInto.child_is_part _ (type_lt he) i hi
  rw [vertices_child_eq_midpoints he hl cube hc halfway] at hq
  rw [vertices_eq he hl cube]
  obtain ⟨⟨a, b⟩, hab, rfl⟩ := hq
  obtain ⟨ha, hb⟩ := parts_lt pairs part (a, b) hab
  by_cases one : vertexPlace e l a = vertexPlace e l b
  · refine .inl ⟨a, ha, ?_⟩
    rw [← one, midpoint_self]
  · exact .inr ⟨_, ⟨a, ha, rfl⟩, _, ⟨b, hb, rfl⟩, one, rfl⟩

/-! ## Interiors -/

theorem height_place_add (n : Int × Int × Int) (l : Nat) (q a : Corner E) :
    height n (place (E := E) l (q + a)) = height n (place (E := E) l q) +
      2 ^ (finest E - l) * (wholeHeight n (unit a) : ℚ) := by
  have step : height n (place (E := E) l a) =
      2 ^ (finest E - l) * (wholeHeight n (unit a) : ℚ) := by
    rw [place, point_eq_smul, toPoint_smul, map_smul, height_toPoint, smul_eq_mul]
    push_cast
    rfl
  rw [place_add, map_add, step]

theorem disjoint_of_splits {n : Int × Int × Int} (he : Valid e) (hl : level e = .ok l)
    (cube : InCube e) (hc : child e i = .ok c) (hd : child e j = .ok d)
    (splits : Splits n
      (((pattern E).childVertices (shape E) vertexOf (site e).type i).map unit)
      (((pattern E).childVertices (shape E) vertexOf (site e).type j).map unit)) :
    Disjoint (intrinsicInterior ℚ (body c)) (intrinsicInterior ℚ (body d)) := by
  obtain ⟨below, ⟨_, hx, less⟩, above⟩ := splits
  obtain ⟨a, ha, rfl⟩ := List.mem_map.mp hx
  have scale : (0 : ℚ) < 2 ^ (finest E - (l + 1)) := by positivity
  rw [body, body, vertices_child he hl cube hc, vertices_child he hl cube hd]
  -- the plane of height one, moved to the children
  refine disjoint_intrinsicInterior (f := height n)
    (c := height n (place (E := E) (l + 1) ((site e).corner + (site e).corner)) +
      2 ^ (finest E - (l + 1)) * 1) ?_ ⟨a, ha, rfl⟩ ?_ ?_
  · rintro _ ⟨b, hb, rfl⟩
    rw [height_place_add]
    gcongr
    exact_mod_cast below _ (List.mem_map_of_mem hb)
  · rw [height_place_add]
    gcongr
    exact_mod_cast less
  · rintro _ ⟨b, hb, rfl⟩
    rw [height_place_add n (l + 1) _ b]
    gcongr
    exact_mod_cast above _ (List.mem_map_of_mem hb)

theorem disjoint_children (he : Valid e) (hl : level e = .ok l) (cube : InCube e)
    (hc : child e i = .ok c) (hd : child e j = .ok d) (other : i ≠ j) :
    Disjoint (intrinsicInterior ℚ (body c)) (intrinsicInterior ℚ (body d)) := by
  obtain ⟨_, hi⟩ := bounds_of_child hc hl
  obtain ⟨_, hj⟩ := bounds_of_child hd hl
  obtain ⟨n, _, splits | splits⟩ := cutsInto.plane_between _ (type_lt he) i hi j hj other
  · exact disjoint_of_splits he hl cube hc hd splits
  · exact (disjoint_of_splits he hl cube hd hc splits).symm

end

end Element

/-! ## Triangles -/

namespace Triangle

instance : Element.Cut Triangle where
  parts := triangleParts

theorem layout_cutsInto :
    layout.CutsInto .triangle offset (Element.unit (E := Triangle)) triangleParts := by
  decide +kernel

instance : Element.LawfulCut Triangle where
  parts_lt := triangleParts_lt
  mem_hull_iff := mem_hull_three_iff
  cutsInto := layout_cutsInto

end Triangle

/-! ## Tetrahedra -/

namespace Tet

instance : Element.Cut Tet where
  parts := tetParts

theorem layout_cutsInto : layout.CutsInto .tet vertexOf (Element.unit (E := Tet)) tetParts := by
  decide +kernel

instance : Element.LawfulCut Tet where
  parts_lt := tetParts_lt
  mem_hull_iff := mem_hull_four_iff
  cutsInto := layout_cutsInto

end Tet

/-! ## Tilings -/

open Element

theorem exists_lawfulCut {s : Shape} (simplex : s = .triangle ∨ s = .tet) :
    ∃ (_ : Anchored s.Carrier) (_ : Axial (Corner s.Carrier)) (_ : Cornered s.Carrier)
      (_ : Cut s.Carrier), LawfulCut s.Carrier := by
  obtain rfl | rfl := simplex
  · exact ⟨inferInstanceAs (Anchored Triangle), inferInstanceAs (Axial (Corner Triangle)),
      inferInstanceAs (Cornered Triangle), inferInstanceAs (Cut Triangle),
      inferInstanceAs (LawfulCut Triangle)⟩
  · exact ⟨inferInstanceAs (Anchored Tet), inferInstanceAs (Axial (Corner Tet)),
      inferInstanceAs (Cornered Tet), inferInstanceAs (Cut Tet),
      inferInstanceAs (LawfulCut Tet)⟩

/-- Red refinement cuts a simplex into its children without gaps and without overlap, at
the midpoints of its edges. -/
theorem red_refinement_tiles (s : Shape) (simplex : s = .triangle ∨ s = .tet) {e : s.Carrier}
    {l : Nat} (he : Valid e) (hl : level e = .ok l) (finer : l < s.maxLevel) (cube : InCube e) :
    (∀ v < s.numVertices, ∃ p, vertexCoords e v = .ok p) ∧
    (∀ i < s.numChildren, ∃ c, child e i = .ok c ∧
      ∀ v < s.numVertices, ∃ p, vertexCoords c v = .ok p) ∧
    (∀ x, x ∈ body e ↔ ∃ i < s.numChildren, ∃ c, child e i = .ok c ∧ x ∈ body c) ∧
    (∀ i j c d, child e i = .ok c → child e j = .ok d → i ≠ j →
      Disjoint (intrinsicInterior ℚ (body c)) (intrinsicInterior ℚ (body d))) ∧
    ∀ i c, child e i = .ok c → ∀ q ∈ vertices c, q ∈ vertices e ∨
      ∃ a ∈ vertices e, ∃ b ∈ vertices e, a ≠ b ∧ q = midpoint ℚ a b := by
  obtain ⟨_, _, _, _, _⟩ := exists_lawfulCut simplex
  have count : (shape s.Carrier).numVertices = s.numVertices := by rw [shape_carrier]
  rw [← finest_carrier] at finer
  rw [← branching_carrier, ← count]
  refine ⟨?_, ?_, fun x => mem_body_iff he hl finer cube,
    fun i j c d hc hd other => disjoint_children he hl cube hc hd other,
    fun i c hc q hq => vertex_or_midpoint he hl cube hc hq⟩
  · intro v hv
    obtain ⟨p, hp, _⟩ := exists_vertexCoords he hl cube hv
    exact ⟨p, hp⟩
  · intro i hi
    obtain ⟨c, hc, validC, _⟩ := child_of_valid he hl finer hi
    refine ⟨c, hc, fun v hv => ?_⟩
    obtain ⟨p, hp, _⟩ := exists_vertexCoords validC ((Descends.single hi hc).level hl)
      (inCube_child he cube hc) hv
    exact ⟨p, hp⟩

theorem red_refinement_tiles_tet :
    Valid rightTet ∧ level rightTet = .ok 1 ∧ InCube rightTet ∧
      vertexCoords rightTet 0 = .ok (0, 0, 0) ∧
      (∃ i < 8, ∃ c, child rightTet i = .ok c ∧ (0 : Point) ∈ body c) ∧
      ∃ c d, child rightTet 0 = .ok c ∧ child rightTet 1 = .ok d ∧
        Disjoint (intrinsicInterior ℚ (body c)) (intrinsicInterior ℚ (body d)) := by
  have valid : Valid rightTet := by decide
  have cube : InCube rightTet := by decide
  obtain ⟨_, children, cover, apart, _⟩ :=
    red_refinement_tiles .tet (.inr rfl) valid (show level rightTet = .ok 1 from rfl) (by decide)
      cube
  obtain ⟨c, hc, _⟩ := children 0 (by decide)
  obtain ⟨d, hd, _⟩ := children 1 (by decide)
  have corner : vertexCoords rightTet 0 = .ok (0, 0, 0) := by rfl
  have inside : (0 : Point) ∈ body rightTet :=
    subset_convexHull ℚ _ ⟨0, by decide, _, corner, by simp [toPoint]⟩
  exact ⟨valid, rfl, cube, corner, (cover 0).mp inside, c, d, hc, hd,
    apart 0 1 c d hc hd (by decide)⟩

end MeshCurve
