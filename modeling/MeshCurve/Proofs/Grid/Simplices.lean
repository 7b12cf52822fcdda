import MeshCurve.Proofs.Cell.Tet
import MeshCurve.Proofs.Cell.Triangle
import MeshCurve.Proofs.Grid.Anchors

/-!
# The grids of triangles and tetrahedra

Each cube of a level is cut into one simplex of every type.  A face lies inside the cube,
where the neighbour has the same corner, or on its boundary, where the neighbour lies in
the next cube along an axis.
-/

namespace MeshCurve

open Element

namespace Kuhn

variable {K : Type} [Kuhn K]

/-- Type and cube of a child. -/
def childAt (K : Type) [Kuhn K] (t i : Nat) : Nat × Nat :=
  (((childTypes K).entry t i).toOption.getD 0, ((childCubes K).entry t i).toOption.getD 0)

theorem childAt_of_link {t i cube t' : Nat} (link : Link K t i cube t') :
    childAt K t i = (t', cube) := by
  rw [childAt, link.1.1, link.1.2]
  rfl

end Kuhn

/-! ## Triangles -/

namespace Triangle

def layout : Pattern (Int × Int) where
  child t i :=
    let (type, cube) := Kuhn.childAt Triangle t i
    ⟨type, (cube >>> 0 % 2 : Nat), (cube >>> 1 % 2 : Nat)⟩
  across t
    | 0 => (⟨1 - t, if t = 0 then (1, 0) else (0, 1)⟩, 2)
    -- the diagonal of the square
    | 1 => (⟨1 - t, 0⟩, 1)
    | _ => (⟨1 - t, if t = 0 then (0, -1) else (-1, 0)⟩, 0)
  onFace t f := ((faceChildren t f).toOption.getD []).map (·, f)

theorem layout_conforms : layout.Conforms .triangle := by
  decide +kernel

def toSite (e : Triangle) : Site (Int × Int) :=
  ⟨e.type, e.x / 2 ^ (depth - e.level), e.y / 2 ^ (depth - e.level)⟩

def ofSite (l : Nat) (q : Site (Int × Int)) : Except Fault Triangle := do
  let x ← Coord.ofCell q.corner.1 (depth - l)
  let y ← Coord.ofCell q.corner.2 (depth - l)
  return ⟨x, y, q.type, l⟩

variable {e c : Triangle} {l f i : Nat} {q : Site (Int × Int)}

theorem ofSite_eq_ok_iff (hl : l ≤ depth) (hq : q.type < 2) :
    ofSite l q = .ok e ↔ Kuhn.Valid e ∧ Element.level e = .ok l ∧ e.toSite = q := by
  obtain ⟨type, p, r⟩ := q
  constructor
  · intro h
    obtain ⟨x, hx, h⟩ := bind_eq_ok_iff.mp h
    obtain ⟨y, hy, made⟩ := bind_eq_ok_iff.mp h
    cases made
    obtain ⟨alignedX, rfl⟩ := Coord.ofCell_eq_ok_iff.mp hx
    obtain ⟨alignedY, rfl⟩ := Coord.ofCell_eq_ok_iff.mp hy
    refine ⟨⟨hl, hq, ?_⟩, rfl, rfl⟩
    simpa [Kuhn.coords] using ⟨alignedX, alignedY⟩
  · rintro ⟨he, level, site⟩
    cases level
    cases site
    obtain ⟨alignedX, alignedY⟩ := Valid.aligned_axes he
    rw [ofSite, alignedX.ofCell_div, ok_bind, alignedY.ofCell_div, ok_bind, pure_eq_ok]

theorem onlyOverflows_ofSite (l : Nat) (q : Site (Int × Int)) : OnlyOverflows (ofSite l q) :=
  (Coord.onlyOverflows_ofCell _ _).bind fun _ =>
    (Coord.onlyOverflows_ofCell _ _).bind fun _ => onlyOverflows_ok _

theorem toSite_child (he : Kuhn.Valid e) (hc : Kuhn.child e i = .ok c) :
    c.toSite = e.toSite.zoom (layout.child e.type i) := by
  obtain ⟨hl, cube, _, t', _, link, rfl⟩ := Kuhn.exists_link_of_child he hc
  have coarse : depth - e.level = depth - (e.level + 1) + 1 := Kuhn.pos_eq_succ (K := Triangle) hl
  have small : depth - (e.level + 1) < 31 := Kuhn.pos_lt Triangle _
  have number : Kuhn.childAt Triangle e.type i = (t', cube) := Kuhn.childAt_of_link link
  simp only [toSite, Site.zoom, layout, number, coarse, Prod.mk_add_mk,
    Coord.double_div_add small]
  rfl

theorem faceNeighbor_eq (he : Kuhn.Valid e) (hf : f < 3) :
    e.faceNeighbor f = (ofSite e.level (layout.beyond e.toSite f).1 >>= fun n =>
      .ok (n, (layout.beyond e.toSite f).2)) := by
  have fits : e.level ≤ depth := he.1
  have ht : e.type < 2 := he.2.1
  obtain ⟨alignedX, alignedY⟩ := Valid.aligned_axes he
  rw [faceNeighbor, require_of_true hf, ok_bind, edgeLen,
    Coord.cellLen_eq (by decide) fits, ok_bind, if_neg (by omega)]
  obtain first | second : e.type = 0 ∨ e.type = 1 := by omega
  all_goals interval_cases f <;>
    simp [-bind_pure_comp, *, ofSite, toSite, layout, Pattern.beyond, Site.shift,
      alignedX.ofCell_add, alignedY.ofCell_add, alignedX.ofCell_div, alignedY.ofCell_div,
      pure_eq_ok, ok_bind, sub_eq_add_neg]

theorem childrenAtFace_eq (ht : e.type < 2) (hf : f < 3) :
    e.childrenAtFace f = ((layout.onFace e.type f).map Prod.fst).mapM (Kuhn.child e) := by
  unfold childrenAtFace
  interval_cases e.type <;> interval_cases f <;> rfl

theorem face_of_onFace {t : Nat} {x : Nat × Nat} (hx : x ∈ layout.onFace t f) : x.2 = f := by
  obtain ⟨_, _, rfl⟩ := List.mem_map.mp hx
  rfl

theorem length_onFace {t : Nat} (ht : t < 2) (hf : f < 3) : (layout.onFace t f).length = 2 := by
  interval_cases t <;> interval_cases f <;> rfl

instance : Grid Triangle where
  Corner := Int × Int
  layout := layout
  site := toSite
  ofSite := ofSite
  axes e := [(e.x, depth), (e.y, depth)]

instance : Axial (Corner Triangle) := inferInstanceAs (Axial (Int × Int))

instance : AnchoredGrid Triangle where
  axes_eq _ := rfl
  entries_site level := by
    cases level
    rfl
  across_short := by decide
  exists_ofSite fits := by
    obtain ⟨x, hx⟩ := fits _ List.mem_cons_self
    obtain ⟨y, hy⟩ := fits _ (List.mem_cons_of_mem _ List.mem_cons_self)
    exact ⟨_, bind_eq_ok_iff.mpr ⟨x, hx, bind_eq_ok_iff.mpr ⟨y, hy, rfl⟩⟩⟩

instance : LawfulGrid Triangle where
  pattern_conforms := layout_conforms
  type_lt he := he.2.1
  ofSite_eq_ok_iff := ofSite_eq_ok_iff
  onlyOverflows_ofSite := onlyOverflows_ofSite
  site_child := toSite_child
  faceNeighbor_eq {e l f} he hl hf := by
    cases hl
    exact faceNeighbor_eq he hf
  childrenAtFace_eq he _ _ := childrenAtFace_eq he.2.1
  faceChildFace_eq _ _ hx := congrArg Except.ok (face_of_onFace (List.mem_of_getElem? hx)).symm
  numFaceChildren_eq {e f} he hf :=
    bind_eq_ok_iff.mpr ⟨(), require_of_true hf, congrArg Except.ok (length_onFace he.2.1 hf).symm⟩
  inCube_root := by decide
  inCube_child he cube hc := (inCube_child_iff he hc).mpr cube
  exists_ofSite_beyond he hl cube hf := exists_ofSite_of_inCube he hl cube he.2.1 hf

end Triangle

/-! ## Tetrahedra -/

namespace Tet

/-- `s` steps along an axis. -/
def along (axis : Nat) (s : Int) : Int × Int × Int :=
  match axis with
  | 0 => (s, 0, 0)
  | 1 => (0, s, 0)
  | _ => (0, 0, s)

def layout : Pattern (Int × Int × Int) where
  child t i :=
    let (type, cube) := Kuhn.childAt Tet t i
    ⟨type, (cube >>> 0 % 2 : Nat), (cube >>> 1 % 2 : Nat), (cube >>> 2 % 2 : Nat)⟩
  across t
    | 0 => (⟨(t + if t % 2 = 0 then 4 else 2) % 6, along (firstAxis t) 1⟩, 3)
    | 1 => (⟨(t + if t % 2 = 0 then 5 else 1) % 6, 0⟩, 1)
    | 2 => (⟨(t + if t % 2 = 0 then 1 else 5) % 6, 0⟩, 2)
    | _ => (⟨(t + if t % 2 = 0 then 2 else 4) % 6, along (firstAxis ((t + 3) % 6)) (-1)⟩, 0)
  onFace t f := ((faceChildren[t]?.bind (·[f]?)).getD []).zip
    ((faceChildFaces[t]?.bind (·[f]?)).getD [])

theorem layout_conforms : layout.Conforms .tet := by
  decide +kernel

def toSite (e : Tet) : Site (Int × Int × Int) :=
  ⟨e.type, e.x / 2 ^ (depth - e.level), e.y / 2 ^ (depth - e.level), e.z / 2 ^ (depth - e.level)⟩

def ofSite (l : Nat) (q : Site (Int × Int × Int)) : Except Fault Tet := do
  let x ← Coord.ofCell q.corner.1 (depth - l)
  let y ← Coord.ofCell q.corner.2.1 (depth - l)
  let z ← Coord.ofCell q.corner.2.2 (depth - l)
  return ⟨x, y, z, q.type, l⟩

variable {e c : Tet} {l f i : Nat} {q : Site (Int × Int × Int)}

theorem ofSite_eq_ok_iff (hl : l ≤ depth) (hq : q.type < 6) :
    ofSite l q = .ok e ↔ Kuhn.Valid e ∧ Element.level e = .ok l ∧ e.toSite = q := by
  obtain ⟨type, p, r, s⟩ := q
  constructor
  · intro h
    obtain ⟨x, hx, h⟩ := bind_eq_ok_iff.mp h
    obtain ⟨y, hy, h⟩ := bind_eq_ok_iff.mp h
    obtain ⟨z, hz, made⟩ := bind_eq_ok_iff.mp h
    cases made
    obtain ⟨alignedX, rfl⟩ := Coord.ofCell_eq_ok_iff.mp hx
    obtain ⟨alignedY, rfl⟩ := Coord.ofCell_eq_ok_iff.mp hy
    obtain ⟨alignedZ, rfl⟩ := Coord.ofCell_eq_ok_iff.mp hz
    refine ⟨⟨hl, hq, ?_⟩, rfl, rfl⟩
    simpa [Kuhn.coords] using ⟨alignedX, alignedY, alignedZ⟩
  · rintro ⟨he, level, site⟩
    cases level
    cases site
    obtain ⟨alignedX, alignedY, alignedZ⟩ := Valid.aligned_axes he
    rw [ofSite, alignedX.ofCell_div, ok_bind, alignedY.ofCell_div, ok_bind, alignedZ.ofCell_div,
      ok_bind, pure_eq_ok]

theorem onlyOverflows_ofSite (l : Nat) (q : Site (Int × Int × Int)) : OnlyOverflows (ofSite l q) :=
  (Coord.onlyOverflows_ofCell _ _).bind fun _ =>
    (Coord.onlyOverflows_ofCell _ _).bind fun _ =>
      (Coord.onlyOverflows_ofCell _ _).bind fun _ => onlyOverflows_ok _

theorem toSite_child (he : Kuhn.Valid e) (hc : Kuhn.child e i = .ok c) :
    c.toSite = e.toSite.zoom (layout.child e.type i) := by
  obtain ⟨hl, cube, _, t', _, link, rfl⟩ := Kuhn.exists_link_of_child he hc
  have coarse : depth - e.level = depth - (e.level + 1) + 1 := Kuhn.pos_eq_succ (K := Tet) hl
  have small : depth - (e.level + 1) < 31 := Kuhn.pos_lt Tet _
  have number : Kuhn.childAt Tet e.type i = (t', cube) := Kuhn.childAt_of_link link
  simp only [toSite, Site.zoom, layout, number, coarse, Prod.mk_add_mk,
    Coord.double_div_add small]
  rfl

theorem shift_eq (he : Kuhn.Valid e) {axis : Nat} (ha : axis < 3) (s : Int) (t d : Nat) :
    (e.shift axis (s * 2 ^ (depth - e.level)) >>= fun n => .ok ({ n with type := t }, d)) =
      (ofSite e.level ⟨t, e.toSite.corner + along axis s⟩ >>= fun n => .ok (n, d)) := by
  obtain ⟨alignedX, alignedY, alignedZ⟩ := Valid.aligned_axes he
  interval_cases axis <;>
    simp [-bind_pure_comp, shift, ofSite, toSite, along, alignedX.ofCell_add,
      alignedY.ofCell_add, alignedZ.ofCell_add, alignedX.ofCell_div, alignedY.ofCell_div,
      alignedZ.ofCell_div, pure_eq_ok, ok_bind]

theorem retype_eq (he : Kuhn.Valid e) (t d : Nat) :
    .ok ({ e with type := t }, d) =
      (ofSite e.level ⟨t, e.toSite.corner + 0⟩ >>= fun n => .ok (n, d)) := by
  obtain ⟨alignedX, alignedY, alignedZ⟩ := Valid.aligned_axes he
  simp [-bind_pure_comp, ofSite, toSite, alignedX.ofCell_div, alignedY.ofCell_div,
    alignedZ.ofCell_div, pure_eq_ok, ok_bind]

theorem faceNeighbor_eq (he : Kuhn.Valid e) (hf : f < 4) :
    e.faceNeighbor f = (ofSite e.level (layout.beyond e.toSite f).1 >>= fun n =>
      .ok (n, (layout.beyond e.toSite f).2)) := by
  have fits : e.level ≤ depth := he.1
  have ht : e.type < 6 := he.2.1
  have forward := shift_eq he (show firstAxis e.type < 3 by unfold firstAxis; omega) 1
  have backward := shift_eq he
    (show firstAxis ((e.type + 3) % 6) < 3 by unfold firstAxis; omega) (-1)
  rw [one_mul] at forward
  rw [neg_one_mul] at backward
  rw [faceNeighbor, require_of_true hf, ok_bind, edgeLen,
    Coord.cellLen_eq (by decide) fits, ok_bind]
  interval_cases f
  · exact forward _ _
  · exact retype_eq he _ _
  · exact retype_eq he _ _
  · exact backward _ _

theorem childrenAtFace_eq (ht : e.type < 6) (hf : f < 4) :
    e.childrenAtFace f = ((layout.onFace e.type f).map Prod.fst).mapM (Kuhn.child e) := by
  unfold childrenAtFace
  interval_cases e.type <;> interval_cases f <;> rfl

theorem length_onFace {t : Nat} (ht : t < 6) (hf : f < 4) : (layout.onFace t f).length = 4 := by
  interval_cases t <;> interval_cases f <;> rfl

theorem faceChildFace_of_type : ∀ t < 6, ∀ f < 4, ∀ k < 4, ∀ x ∈ (layout.onFace t f)[k]?,
    faceChildFace ⟨0, 0, 0, t, 0⟩ f k = .ok x.2 := by
  decide +kernel

theorem faceChildFace_eq {k : Nat} {x : Nat × Nat} (ht : e.type < 6) (hf : f < 4)
    (hx : (layout.onFace e.type f)[k]? = some x) : e.faceChildFace f k = .ok x.2 := by
  have hk : k < 4 := length_onFace ht hf ▸ (List.getElem?_eq_some_iff.mp hx).1
  exact faceChildFace_of_type e.type ht f hf k hk x hx

instance : Grid Tet where
  Corner := Int × Int × Int
  layout := layout
  site := toSite
  ofSite := ofSite
  axes e := [(e.x, depth), (e.y, depth), (e.z, depth)]

instance : Axial (Corner Tet) := inferInstanceAs (Axial (Int × Int × Int))

instance : AnchoredGrid Tet where
  axes_eq _ := rfl
  entries_site level := by
    cases level
    rfl
  across_short := by decide +kernel
  exists_ofSite fits := by
    obtain ⟨x, hx⟩ := fits _ List.mem_cons_self
    obtain ⟨y, hy⟩ := fits _ (List.mem_cons_of_mem _ List.mem_cons_self)
    obtain ⟨z, hz⟩ := fits _ (List.mem_cons_of_mem _ (List.mem_cons_of_mem _ List.mem_cons_self))
    exact ⟨_, bind_eq_ok_iff.mpr
      ⟨x, hx, bind_eq_ok_iff.mpr ⟨y, hy, bind_eq_ok_iff.mpr ⟨z, hz, rfl⟩⟩⟩⟩

instance : LawfulGrid Tet where
  pattern_conforms := layout_conforms
  type_lt he := he.2.1
  ofSite_eq_ok_iff := ofSite_eq_ok_iff
  onlyOverflows_ofSite := onlyOverflows_ofSite
  site_child := toSite_child
  faceNeighbor_eq {e l f} he hl hf := by
    cases hl
    exact faceNeighbor_eq he hf
  childrenAtFace_eq he _ _ := childrenAtFace_eq he.2.1
  faceChildFace_eq he := faceChildFace_eq he.2.1
  numFaceChildren_eq {e f} he hf :=
    bind_eq_ok_iff.mpr ⟨(), require_of_true hf, congrArg Except.ok (length_onFace he.2.1 hf).symm⟩
  inCube_root := by decide
  inCube_child he cube hc := (inCube_child_iff he hc).mpr cube
  exists_ofSite_beyond he hl cube hf := exists_ofSite_of_inCube he hl cube he.2.1 hf

end Tet

end MeshCurve
