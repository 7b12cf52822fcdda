import MeshCurve.Proofs.Grid.Simplices

/-!
# The vertices of simplices

Two simplices that are neighbours across a face have the vertices of that face in common
and no others.
-/

namespace MeshCurve

/-- The vertices of a face, which are all but the one opposite to it, are vertices of the
neighbour across the face, and that one is not. -/
@[mk_iff]
structure Pattern.SharesVertices {V : Type} [AddCommGroup V] (p : Pattern V) (s : Shape)
    (vertexOf : (type vertex : Nat) → V) : Prop where
  shared : ∀ t < s.numTypes, ∀ f < s.numFaces, ∀ v < s.numFaces, v ≠ f →
    ∃ w < s.numFaces, w ≠ (p.across t f).2 ∧
      vertexOf t v = (p.across t f).1.corner + vertexOf (p.across t f).1.type w
  opposite : ∀ t < s.numTypes, ∀ f < s.numFaces, ∀ w < s.numFaces,
    vertexOf t f ≠ (p.across t f).1.corner + vertexOf (p.across t f).1.type w

set_option synthInstance.maxSize 1000 in
instance {V : Type} [AddCommGroup V] [DecidableEq V] (p : Pattern V) (s : Shape)
    (vertexOf : (type vertex : Nat) → V) : Decidable (p.SharesVertices s vertexOf) :=
  decidable_of_iff _ (p.sharesVertices_iff s vertexOf).symm

namespace Element

/-- Where the vertices of a cell lie. -/
class Cornered (E : Type) [Grid E] where
  /-- the vertices by type, seen from the corner of the cell -/
  vertexOf : (type vertex : Nat) → Corner E
  /-- a corner as a point, in units of the edges of its level -/
  unit : Corner E →+ Int × Int × Int
  /-- a corner of the cells of a level as a point of the mesh -/
  point : (level : Nat) → Corner E → Int × Int × Int

export Cornered (vertexOf unit point)

def Representable (p : Int × Int × Int) : Prop :=
  IsCoordinate p.1 ∧ IsCoordinate p.2.1 ∧ IsCoordinate p.2.2

/-- What a shape has to prove about its vertices, if every face lies opposite one. -/
class LawfulCornered (E : Type) [Element E] [Anchored E] [Grid E] [Axial (Corner E)] [Cornered E] :
    Prop extends LawfulGrid E, AnchoredGrid E where
  numVertices_eq : (shape E).numVertices = (shape E).numFaces
  finest_lt : finest E < 30
  vertexOf_short : ∀ t < (shape E).numTypes, ∀ v < (shape E).numFaces,
    Short (vertexOf (E := E) t v)
  representable_point {l : Nat} {a : Corner E} :
    (∀ p ∈ entries a, IsCoordinate (p * 2 ^ pos E l)) → Representable (point (E := E) l a)
  unit_inj : Function.Injective (unit (E := E))
  point_eq_smul (l : Nat) (a : Corner E) : point l a = (2 ^ pos E l : Int) • unit a
  vertexCoords_eq_ok_iff {e : E} {l v : Nat} {p : Int × Int × Int} : Valid e →
    level e = .ok l → v < (shape E).numFaces → (vertexCoords e v = .ok p ↔
      p = point (E := E) l ((site e).corner + vertexOf (site e).type v) ∧ Representable p)
  sharesVertices : (pattern E).SharesVertices (shape E) vertexOf

export LawfulCornered (numVertices_eq finest_lt vertexOf_short representable_point unit_inj
  point_eq_smul vertexCoords_eq_ok_iff sharesVertices)

variable {E : Type} [Element E]

/-- The vertices of a face, which are all but the one opposite to it. -/
def facePoints (e : E) (f : Nat) : Set (Int × Int × Int) :=
  {p | ∃ v < (shape E).numVertices, v ≠ f ∧ vertexCoords e v = .ok p}

section

variable [Anchored E] [Grid E] [Axial (Corner E)] [Cornered E] [LawfulCornered E] {e n : E}
  {f d l v w : Nat}

theorem point_inj (l : Nat) : Function.Injective (point (E := E) l) := by
  intro a b same
  rw [point_eq_smul, point_eq_smul] at same
  exact unit_inj (smul_right_injective _ (Coord.two_pow_pos (pos E l)).ne' same)

/-- The words have room for the vertices of the cells near the cube. -/
theorem representable_of_near (he : Valid e) (hl : level e = .ok l)
    (near : ∀ c ∈ anchor e, Coord.Near c (finest E)) (hv : v < (shape E).numFaces) :
    Representable (point (E := E) l ((site e).corner + vertexOf (site e).type v)) := by
  refine representable_point fun p hp => ?_
  obtain ⟨x, hx, s, step, rfl⟩ :=
    exists_of_mem_entries_corner_add hl (vertexOf_short _ (type_lt he) v hv) hp
  rw [← (aligned_of_valid he hl x hx).add_mul]
  exact (near x hx).isCoordinate_add finest_lt (Nat.sub_le _ _) step

theorem exists_vertexCoords_of_near (he : Valid e) (hl : level e = .ok l)
    (near : ∀ c ∈ anchor e, Coord.Near c (finest E)) (hv : v < (shape E).numVertices) :
    ∃ p, vertexCoords e v = .ok p := by
  rw [numVertices_eq] at hv
  exact ⟨_, (vertexCoords_eq_ok_iff he hl hv).mpr ⟨rfl, representable_of_near he hl near hv⟩⟩

/-- The vertices of a neighbour, seen from the corner of the cell itself. -/
theorem corner_vertexOf_neighbor (he : Valid e) (hl : level e = .ok l)
    (hf : f < (shape E).numFaces) (hn : faceNeighbor e f = .ok (n, d)) (w : Nat) :
    (site n).corner + vertexOf (site n).type w = (site e).corner +
      (((pattern E).across (site e).type f).1.corner +
        vertexOf ((pattern E).across (site e).type f).1.type w) := by
  have there := congrArg Prod.fst ((faceNeighbor_eq_ok_iff he hl hf).mp hn).2.2
  have siteN : site n = (site e).shift ((pattern E).across (site e).type f).1 := there
  rw [siteN, ← add_assoc]
  rfl

theorem facePoints_subset (he : Valid e) (hf : f < (shape E).numFaces)
    (hn : faceNeighbor e f = .ok (n, d)) : facePoints e f ⊆ facePoints n d := by
  obtain ⟨l, _, hl⟩ := level_of_valid he
  obtain ⟨validN, levelN, there⟩ := (faceNeighbor_eq_ok_iff he hl hf).mp hn
  have dual : d = ((pattern E).across (site e).type f).2 := congrArg Prod.snd there
  rintro p ⟨v, hv, off, hp⟩
  rw [numVertices_eq] at hv
  obtain ⟨place, fits⟩ := (vertexCoords_eq_ok_iff he hl hv).mp hp
  obtain ⟨w, hw, off', same⟩ := (sharesVertices (E := E)).shared _ (type_lt he) f hf v hv off
  refine ⟨w, numVertices_eq (E := E) ▸ hw, dual ▸ off', ?_⟩
  rw [vertexCoords_eq_ok_iff validN levelN hw, corner_vertexOf_neighbor he hl hf hn, ← same]
  exact ⟨place, fits⟩

theorem facePoints_eq (he : Valid e) (hf : f < (shape E).numFaces)
    (hn : faceNeighbor e f = .ok (n, d)) : facePoints e f = facePoints n d := by
  obtain ⟨validN, _, _, hd, back⟩ := faceNeighbor_back he hf hn
  exact (facePoints_subset he hf hn).antisymm (facePoints_subset validN hd back)

theorem vertexCoords_ne (he : Valid e) (hf : f < (shape E).numFaces)
    (hn : faceNeighbor e f = .ok (n, d)) (p : Int × Int × Int) (hp : vertexCoords e f = .ok p) :
    ∀ w < (shape E).numVertices, vertexCoords n w ≠ .ok p := by
  obtain ⟨l, _, hl⟩ := level_of_valid he
  obtain ⟨validN, levelN, _⟩ := (faceNeighbor_eq_ok_iff he hl hf).mp hn
  intro w hw same
  rw [numVertices_eq] at hw
  obtain ⟨here, _⟩ := (vertexCoords_eq_ok_iff he hl hf).mp hp
  obtain ⟨there, _⟩ := (vertexCoords_eq_ok_iff validN levelN hw).mp same
  have meet := point_inj (E := E) l (here.symm.trans there)
  rw [corner_vertexOf_neighbor he hl hf hn, add_right_inj] at meet
  exact (sharesVertices (E := E)).opposite _ (type_lt he) f hf w hw meet

end

end Element

namespace Triangle

instance : Element.Cornered Triangle where
  vertexOf := offset
  unit := (AddMonoidHom.fst Int Int).prod ((AddMonoidHom.snd Int Int).prod 0)
  point l p := (p.1 * 2 ^ (depth - l), p.2 * 2 ^ (depth - l), 0)

variable {e : Triangle} {v : Nat} {p : Int × Int × Int}

theorem vertexCoords_eq_ok_iff (he : Kuhn.Valid e) (hv : v < 3) :
    e.vertexCoords v = .ok p ↔
      p = ((e.corner v).1, (e.corner v).2, 0) ∧ Element.Representable p := by
  rw [vertexCoords, require_of_true hv, ok_bind, bind_eq_ok_iff]
  constructor
  · rintro ⟨q, hq, made⟩
    obtain ⟨rfl, fitX, fitY⟩ := (vertex_eq_ok_iff he v).mp hq
    cases made
    exact ⟨rfl, fitX, fitY, (Coord.aligned_zero 0).1⟩
  · rintro ⟨rfl, fitX, fitY, _⟩
    exact ⟨_, (vertex_eq_ok_iff he v).mpr ⟨rfl, fitX, fitY⟩, rfl⟩

theorem layout_sharesVertices : layout.SharesVertices .triangle offset := by
  decide +kernel

instance : Element.LawfulCornered Triangle where
  numVertices_eq := rfl
  finest_lt := by decide
  vertexOf_short := by decide
  representable_point fits := ⟨fits _ List.mem_cons_self,
    fits _ (List.mem_cons_of_mem _ List.mem_cons_self), (Coord.aligned_zero 0).1⟩
  unit_inj _ _ same :=
    Prod.ext (congrArg (fun p : Int × Int × Int => p.1) same) (congrArg (fun p => p.2.1) same)
  point_eq_smul _ a :=
    Prod.ext (mul_comm a.1 _) (Prod.ext (mul_comm a.2 _) (mul_zero _).symm)
  vertexCoords_eq_ok_iff {e l v p} he hl hv := by
    cases hl
    have place := corner_eq he v
    refine (vertexCoords_eq_ok_iff he hv).trans ?_
    rw [place]
    rfl
  sharesVertices := layout_sharesVertices

end Triangle

namespace Tet

def vertexOf (t v : Nat) : Int × Int × Int := (offset t v 0, offset t v 1, offset t v 2)

instance : Element.Cornered Tet where
  vertexOf := vertexOf
  unit := AddMonoidHom.id _
  point l p :=
    (p.1 * 2 ^ (depth - l), p.2.1 * 2 ^ (depth - l), p.2.2 * 2 ^ (depth - l))

variable {e : Tet} {v : Nat} {p : Int × Int × Int}

theorem vertexCoords_eq_ok_iff (he : Kuhn.Valid e) (hv : v < 4) :
    e.vertexCoords v = .ok p ↔ p = e.corner v ∧ Element.Representable p := by
  rw [vertexCoords, require_of_true hv, ok_bind]
  exact vertex_eq_ok_iff he hv

theorem layout_sharesVertices : layout.SharesVertices .tet vertexOf := by
  decide +kernel

instance : Element.LawfulCornered Tet where
  numVertices_eq := rfl
  finest_lt := by decide
  vertexOf_short := by decide
  representable_point fits := ⟨fits _ List.mem_cons_self,
    fits _ (List.mem_cons_of_mem _ List.mem_cons_self),
    fits _ (List.mem_cons_of_mem _ (List.mem_cons_of_mem _ List.mem_cons_self))⟩
  unit_inj := Function.injective_id
  point_eq_smul _ a :=
    Prod.ext (mul_comm a.1 _) (Prod.ext (mul_comm a.2.1 _) (mul_comm a.2.2 _))
  vertexCoords_eq_ok_iff {e l v p} he hl hv := by
    cases hl
    have place := corner_eq he v
    refine (vertexCoords_eq_ok_iff he hv).trans ?_
    rw [place]
    rfl
  sharesVertices := layout_sharesVertices

end Tet

end MeshCurve
