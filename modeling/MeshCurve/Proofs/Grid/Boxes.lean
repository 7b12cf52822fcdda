import MeshCurve.Proofs.Cell.Line
import MeshCurve.Proofs.Cell.Quad
import MeshCurve.Proofs.Grid.Anchors
import Mathlib.Tactic.IntervalCases

/-!
# The grids of lines and quads

Boxes have one type.  Their faces come in pairs that look along an axis, and across a
face lies the next box along the axis.
-/

namespace MeshCurve

open Element

/-! ## Lines -/

namespace Line

def layout : Pattern Int where
  child _ i := ⟨0, i⟩
  across _ face := (⟨0, if face = 0 then -1 else 1⟩, 1 - face)
  onFace _ face := [(face, face)]

theorem layout_conforms : layout.Conforms .line := by
  decide +kernel

def toSite (e : Line) : Site Int := ⟨0, e.x / 2 ^ (depth - e.level)⟩

def ofSite (l : Nat) (q : Site Int) : Except Fault Line := do
  let x ← Coord.ofCell q.corner (depth - l)
  return ⟨x, l⟩

variable {e c : Line} {l f i : Nat} {q : Site Int}

theorem ofSite_eq_ok_iff (hl : l ≤ depth) (hq : q.type < 1) :
    ofSite l q = .ok e ↔ e.Valid ∧ Element.level e = .ok l ∧ e.toSite = q := by
  obtain ⟨type, corner⟩ := q
  obtain rfl : type = 0 := Nat.lt_one_iff.mp hq
  constructor
  · intro h
    obtain ⟨x, hx, made⟩ := bind_eq_ok_iff.mp h
    cases made
    obtain ⟨aligned, rfl⟩ := Coord.ofCell_eq_ok_iff.mp hx
    exact ⟨⟨hl, aligned⟩, rfl, rfl⟩
  · rintro ⟨he, level, site⟩
    cases level
    cases site
    rw [ofSite, he.aligned.ofCell_div, ok_bind, pure_eq_ok]

theorem onlyOverflows_ofSite (l : Nat) (q : Site Int) : OnlyOverflows (ofSite l q) :=
  (Coord.onlyOverflows_ofCell _ _).bind fun _ => onlyOverflows_ok _

theorem toSite_child (hl : e.level < depth) (hi : i < 2) (hc : e.child i = .ok c) :
    c.toSite = e.toSite.zoom (layout.child 0 i) := by
  have coarse : depth - e.level = depth - (e.level + 1) + 1 := pos_eq_succ (E := Line) hl
  have small : depth - (e.level + 1) < 31 := pos_lt Line _
  cases (child_eq hl hi).symm.trans hc
  simp only [toSite, Site.zoom, layout, coarse, Coord.double_div_add small]

theorem faceNeighbor_eq (he : e.Valid) (hf : f < 2) :
    e.faceNeighbor f = (ofSite e.level (layout.beyond e.toSite f).1 >>= fun n =>
      .ok (n, (layout.beyond e.toSite f).2)) := by
  rw [faceNeighbor, require_of_true hf, ok_bind, edgeLen,
    Coord.cellLen_eq (by decide) he.1, ok_bind]
  interval_cases f <;>
    simp [-bind_pure_comp, ofSite, toSite, layout, Pattern.beyond, Site.shift,
      he.aligned.ofCell_add, pure_eq_ok, ok_bind, sub_eq_add_neg]

theorem childrenAtFace_eq (hf : f < 2) :
    e.childrenAtFace f = ((layout.onFace 0 f).map Prod.fst).mapM e.child := by
  rw [childrenAtFace, require_of_true hf, ok_bind]
  rfl

instance : Grid Line where
  Corner := Int
  layout := layout
  site := toSite
  ofSite := ofSite
  axes e := [(e.x, depth)]

instance : Axial (Corner Line) := inferInstanceAs (Axial Int)

instance : AnchoredGrid Line where
  axes_eq _ := rfl
  entries_site level := by
    cases level
    rfl
  across_short := by decide
  exists_ofSite fits := by
    obtain ⟨x, hx⟩ := fits _ List.mem_cons_self
    exact ⟨_, bind_eq_ok_iff.mpr ⟨x, hx, rfl⟩⟩

instance : LawfulGrid Line where
  pattern_conforms := layout_conforms
  type_lt _ := Nat.one_pos
  ofSite_eq_ok_iff := ofSite_eq_ok_iff
  onlyOverflows_ofSite := onlyOverflows_ofSite
  site_child {e c i} _ hc := by
    obtain ⟨hl, hi⟩ := bounds_of_child hc rfl
    exact toSite_child hl hi hc
  faceNeighbor_eq {e l f} he hl hf := by
    cases hl
    exact faceNeighbor_eq he hf
  childrenAtFace_eq _ _ _ := childrenAtFace_eq
  faceChildFace_eq {e f k x} _ _ hx := by
    have part : x ∈ [(f, f)] := List.mem_of_getElem? hx
    simp only [List.mem_singleton] at part
    rw [part]
    rfl
  numFaceChildren_eq {e f} _ hf := bind_eq_ok_iff.mpr ⟨(), require_of_true hf, rfl⟩
  inCube_root := by decide
  inCube_child he cube hc := (inCube_child_iff he hc).mpr cube
  exists_ofSite_beyond he hl cube hf := exists_ofSite_of_inCube he hl cube Nat.one_pos hf

end Line

/-! ## Quads -/

namespace Quad

def layout : Pattern (Int × Int) where
  child _ i := ⟨0, (i % 2 : Nat), (i / 2 % 2 : Nat)⟩
  across _
    | 0 => (⟨0, -1, 0⟩, 1)
    | 1 => (⟨0, 1, 0⟩, 0)
    | 2 => (⟨0, 0, -1⟩, 3)
    | _ => (⟨0, 0, 1⟩, 2)
  onFace _
    | 0 => [(0, 0), (2, 0)]
    | 1 => [(1, 1), (3, 1)]
    | 2 => [(0, 2), (1, 2)]
    | _ => [(2, 3), (3, 3)]

theorem layout_conforms : layout.Conforms .quad := by
  decide +kernel

def toSite (e : Quad) : Site (Int × Int) :=
  ⟨0, e.x / 2 ^ (depth - e.level), e.y / 2 ^ (depth - e.level)⟩

def ofSite (l : Nat) (q : Site (Int × Int)) : Except Fault Quad := do
  let x ← Coord.ofCell q.corner.1 (depth - l)
  let y ← Coord.ofCell q.corner.2 (depth - l)
  return ⟨x, y, l⟩

variable {e c : Quad} {l f i : Nat} {q : Site (Int × Int)}

theorem ofSite_eq_ok_iff (hl : l ≤ depth) (hq : q.type < 1) :
    ofSite l q = .ok e ↔ e.Valid ∧ Element.level e = .ok l ∧ e.toSite = q := by
  obtain ⟨type, p, r⟩ := q
  obtain rfl : type = 0 := Nat.lt_one_iff.mp hq
  constructor
  · intro h
    obtain ⟨x, hx, h⟩ := bind_eq_ok_iff.mp h
    obtain ⟨y, hy, made⟩ := bind_eq_ok_iff.mp h
    cases made
    obtain ⟨alignedX, rfl⟩ := Coord.ofCell_eq_ok_iff.mp hx
    obtain ⟨alignedY, rfl⟩ := Coord.ofCell_eq_ok_iff.mp hy
    exact ⟨⟨hl, alignedX, alignedY⟩, rfl, rfl⟩
  · rintro ⟨he, level, site⟩
    cases level
    cases site
    rw [ofSite, he.aligned.1.ofCell_div, ok_bind, he.aligned.2.ofCell_div, ok_bind, pure_eq_ok]

theorem onlyOverflows_ofSite (l : Nat) (q : Site (Int × Int)) : OnlyOverflows (ofSite l q) :=
  (Coord.onlyOverflows_ofCell _ _).bind fun _ =>
    (Coord.onlyOverflows_ofCell _ _).bind fun _ => onlyOverflows_ok _

theorem toSite_child (hl : e.level < depth) (hi : i < 4) (hc : e.child i = .ok c) :
    c.toSite = e.toSite.zoom (layout.child 0 i) := by
  have coarse : depth - e.level = depth - (e.level + 1) + 1 := pos_eq_succ (E := Quad) hl
  have small : depth - (e.level + 1) < 31 := pos_lt Quad _
  cases (child_eq hl hi).symm.trans hc
  simp only [toSite, quadrant, Site.zoom, layout, coarse, Prod.mk_add_mk,
    Coord.double_div_add small]

theorem faceNeighbor_eq (he : e.Valid) (hf : f < 4) :
    e.faceNeighbor f = (ofSite e.level (layout.beyond e.toSite f).1 >>= fun n =>
      .ok (n, (layout.beyond e.toSite f).2)) := by
  rw [faceNeighbor, require_of_true hf, ok_bind, edgeLen,
    Coord.cellLen_eq (by decide) he.1, ok_bind]
  interval_cases f <;>
    simp [-bind_pure_comp, ofSite, toSite, layout, Pattern.beyond, Site.shift,
      he.aligned.1.ofCell_add, he.aligned.2.ofCell_add, he.aligned.1.ofCell_div,
      he.aligned.2.ofCell_div, pure_eq_ok, ok_bind, sub_eq_add_neg]

theorem childrenAtFace_eq (hf : f < 4) :
    e.childrenAtFace f = ((layout.onFace 0 f).map Prod.fst).mapM e.child := by
  interval_cases f <;> rfl

theorem face_of_onFace {x : Nat × Nat} (hf : f < 4) (hx : x ∈ layout.onFace 0 f) : x.2 = f := by
  revert x
  interval_cases f <;> decide

instance : Grid Quad where
  Corner := Int × Int
  layout := layout
  site := toSite
  ofSite := ofSite
  axes e := [(e.x, depth), (e.y, depth)]

instance : Axial (Corner Quad) := inferInstanceAs (Axial (Int × Int))

instance : AnchoredGrid Quad where
  axes_eq _ := rfl
  entries_site level := by
    cases level
    rfl
  across_short := by decide
  exists_ofSite fits := by
    obtain ⟨x, hx⟩ := fits _ List.mem_cons_self
    obtain ⟨y, hy⟩ := fits _ (List.mem_cons_of_mem _ List.mem_cons_self)
    exact ⟨_, bind_eq_ok_iff.mpr ⟨x, hx, bind_eq_ok_iff.mpr ⟨y, hy, rfl⟩⟩⟩

instance : LawfulGrid Quad where
  pattern_conforms := layout_conforms
  type_lt _ := Nat.one_pos
  ofSite_eq_ok_iff := ofSite_eq_ok_iff
  onlyOverflows_ofSite := onlyOverflows_ofSite
  site_child {e c i} _ hc := by
    obtain ⟨hl, hi⟩ := bounds_of_child hc rfl
    exact toSite_child hl hi hc
  faceNeighbor_eq {e l f} he hl hf := by
    cases hl
    exact faceNeighbor_eq he hf
  childrenAtFace_eq _ _ _ := childrenAtFace_eq
  faceChildFace_eq _ hf hx :=
    congrArg Except.ok (face_of_onFace hf (List.mem_of_getElem? hx)).symm
  numFaceChildren_eq {e f} _ hf := by
    have hf : f < 4 := hf
    refine bind_eq_ok_iff.mpr ⟨(), require_of_true hf, ?_⟩
    interval_cases f <;> rfl
  inCube_root := by decide
  inCube_child he cube hc := (inCube_child_iff he hc).mpr cube
  exists_ofSite_beyond he hl cube hf := exists_ofSite_of_inCube he hl cube Nat.one_pos hf

end Quad

end MeshCurve
