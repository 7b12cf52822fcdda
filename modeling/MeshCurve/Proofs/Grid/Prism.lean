import MeshCurve.Proofs.Cell.PrismTree
import MeshCurve.Proofs.Grid.Boxes
import MeshCurve.Proofs.Grid.Simplices

/-!
# The grid of prisms

The pattern of prisms is the product of those of triangles and lines: the sides are
crossed in the triangle, bottom and top in the line.
-/

namespace MeshCurve.Prism

abbrev Place : Type := (Int × Int) × Int

/-- The site of both factors together. -/
def pair (t : Site (Int × Int)) (n : Site Int) : Site Place := ⟨t.type, t.corner, n.corner⟩

def layout : Pattern Place where
  child t i := pair (Triangle.layout.child t (i % 4)) (Line.layout.child 0 (i / 4))
  across t
    | 3 => (pair (.origin t) (Line.layout.across 0 0).1, top)
    | 4 => (pair (.origin t) (Line.layout.across 0 1).1, bottom)
    | f => (pair (Triangle.layout.across t f).1 (.origin 0), (Triangle.layout.across t f).2)
  onFace t
    | 3 => (List.range 4).map (·, bottom)
    | 4 => (List.range' 4 4).map (·, top)
    | f => Triangle.layout.onFace t f ++
        (Triangle.layout.onFace t f).map fun x => (x.1 + 4, x.2)

theorem layout_conforms : layout.Conforms .prism := by
  decide +kernel

def toSite (e : Prism) : Site Place := pair e.tri.toSite e.line.toSite

def ofSite (l : Nat) (q : Site Place) : Except Fault Prism := do
  let tri ← Triangle.ofSite l ⟨q.type, q.corner.1⟩
  let line ← Line.ofSite l ⟨0, q.corner.2⟩
  return ⟨tri, line⟩

variable {e c : Prism} {l f i : Nat} {q : Site Place}

theorem ofSite_eq_ok_iff (hl : l ≤ depth) (hq : q.type < 2) :
    ofSite l q = .ok e ↔ e.Valid ∧ Element.level e = .ok l ∧ e.toSite = q := by
  have deepT : l ≤ Triangle.depth := Nat.le_trans hl (by decide)
  have deepN : l ≤ Line.depth := Nat.le_trans hl (by decide)
  obtain ⟨type, p, r⟩ := q
  constructor
  · intro h
    obtain ⟨tri, hT, h⟩ := bind_eq_ok_iff.mp h
    obtain ⟨line, hN, made⟩ := bind_eq_ok_iff.mp h
    cases made
    obtain ⟨validT, levelT, siteT⟩ := (Triangle.ofSite_eq_ok_iff deepT hq).mp hT
    obtain ⟨validN, levelN, siteN⟩ := (Line.ofSite_eq_ok_iff deepN Nat.one_pos).mp hN
    cases levelT
    have same : tri.level = line.level := Except.ok.inj levelN.symm
    refine ⟨⟨same, hl, validT, validN⟩, level_eq_ok_of_eq same, ?_⟩
    simp [toSite, pair, siteT, siteN]
  · rintro ⟨he, level, site⟩
    cases he.level_eq.symm.trans level
    cases site
    have hT := (Triangle.ofSite_eq_ok_iff deepT hq).mpr ⟨he.tri, rfl, rfl⟩
    have hN := (Line.ofSite_eq_ok_iff deepN Nat.one_pos).mpr
      ⟨he.line, congrArg Except.ok he.1.symm, rfl⟩
    exact bind_eq_ok_iff.mpr ⟨_, hT, bind_eq_ok_iff.mpr ⟨_, hN, rfl⟩⟩

theorem onlyOverflows_ofSite (l : Nat) (q : Site Place) : OnlyOverflows (ofSite l q) :=
  (Triangle.onlyOverflows_ofSite _ _).bind fun _ =>
    (Line.onlyOverflows_ofSite _ _).bind fun _ => onlyOverflows_ok _

theorem toSite_child (he : e.Valid) (hc : e.child i = .ok c) :
    c.toSite = e.toSite.zoom (layout.child e.tri.type i) := by
  obtain ⟨hi, same, hl, hT, hN⟩ := child_eq_ok_iff.mp hc
  have low : e.line.level < Line.depth := same ▸ Nat.lt_trans hl (by decide)
  have siteT := Triangle.toSite_child he.tri hT
  have siteN := Line.toSite_child low (Nat.div_lt_of_lt_mul hi) hN
  simp [toSite, siteT, siteN, pair, Site.zoom, layout]

theorem ofFactors_eq_ofSite {t : Site (Int × Int)} {n : Site Int} (hl : l ≤ depth)
    (ht : t.type < 2) (hn : n.type < 1) :
    (do let tri ← Triangle.ofSite l t; let line ← Line.ofSite l n; ofFactors tri line) =
      ofSite l (pair t n) := by
  have whole : ofSite l (pair t n) =
    (do let tri ← Triangle.ofSite l t; let line ← Line.ofSite l n; return ⟨tri, line⟩) := rfl
  rw [whole]
  cases hT : Triangle.ofSite l t with
  | error fault => rfl
  | ok tri =>
      cases hN : Line.ofSite l n with
      | error fault => rfl
      | ok line =>
          have levelT := ((Triangle.ofSite_eq_ok_iff (Nat.le_trans hl (by decide)) ht).mp hT).2.1
          have levelN := ((Line.ofSite_eq_ok_iff (Nat.le_trans hl (by decide)) hn).mp hN).2.1
          cases levelT
          exact ofFactors_eq (Except.ok.inj levelN.symm) hl

theorem faceNeighbor_side (hf : f < 3) :
    e.faceNeighbor f = (e.tri.faceNeighbor f >>= fun n =>
      ofFactors n.1 e.line >>= fun p => .ok (p, n.2)) := by
  interval_cases f <;> rfl

theorem faceNeighbor_end (hf : f < 2) :
    e.faceNeighbor (3 + f) = (e.line.faceNeighbor f >>= fun n =>
      ofFactors e.tri n.1 >>= fun p => .ok (p, 3 + n.2)) := by
  interval_cases f <;>
    simp [-bind_pure_comp, faceNeighbor, Line.faceNeighbor, require, pure_eq_ok, ok_bind, top,
      bottom]

theorem beyond_side (hf : f < 3) :
    layout.beyond e.toSite f = (pair (Triangle.layout.beyond e.tri.toSite f).1 e.line.toSite,
      (Triangle.layout.beyond e.tri.toSite f).2) := by
  interval_cases f <;> simp [Pattern.beyond, layout, toSite, pair, Site.shift, Site.origin]

theorem beyond_end (hf : f < 2) :
    layout.beyond e.toSite (3 + f) = (pair e.tri.toSite (Line.layout.beyond e.line.toSite f).1,
      3 + (Line.layout.beyond e.line.toSite f).2) := by
  interval_cases f <;>
    simp [Pattern.beyond, layout, toSite, pair, Site.shift, Site.origin, Line.toSite,
      Line.layout, Triangle.toSite, top, bottom]

theorem faceNeighbor_eq (he : e.Valid) (hf : f < 5) :
    e.faceNeighbor f = (ofSite e.tri.level (layout.beyond e.toSite f).1 >>= fun n =>
      .ok (n, (layout.beyond e.toSite f).2)) := by
  have ownT : Triangle.ofSite e.tri.level e.tri.toSite = .ok e.tri :=
    Element.ofSite_site he.tri rfl
  have ownN : Line.ofSite e.tri.level e.line.toSite = .ok e.line :=
    Element.ofSite_site he.line (congrArg Except.ok he.1.symm)
  by_cases side : f < 3
  · -- Across a side lies a prism over the same part of the line.
    have ht : (Triangle.layout.beyond e.tri.toSite f).1.type < 2 :=
      Triangle.layout_conforms.across_type e.tri.type he.tri.2.1 f side
    have both := ofFactors_eq_ofSite he.2.1 ht (show e.line.toSite.type < 1 from Nat.one_pos)
    rw [ownN] at both
    rw [beyond_side side, faceNeighbor_side side, Triangle.faceNeighbor_eq he.tri side, ← both]
    simp only [bind_assoc, ok_bind]
  · obtain ⟨g, rfl⟩ := Nat.exists_eq_add_of_le (Nat.le_of_not_lt side)
    have hg : g < 2 := by omega
    -- Above and below, the triangle is the same and the line is crossed.
    have hn : (Line.layout.beyond e.line.toSite g).1.type < 1 :=
      Line.layout_conforms.across_type 0 Nat.one_pos g hg
    have both := ofFactors_eq_ofSite he.2.1 (show e.tri.toSite.type < 2 from he.tri.2.1) hn
    rw [ownT, ok_bind] at both
    rw [beyond_end hg, faceNeighbor_end hg, Line.faceNeighbor_eq he.line hg, ← both, he.1]
    simp only [bind_assoc, ok_bind]

/-! ## Children at a face -/

/-- The prisms over half `j` of the line are made from the triangles one by one. -/
theorem mapM_child_storey {is : List Nat} {tris : List Triangle} {line : Line} {j : Nat}
    (he : e.Valid) (hT : is.mapM (Kuhn.child e.tri) = .ok tris) (hN : e.line.child j = .ok line) :
    tris.mapM (ofFactors · line) = (is.map (· + 4 * j)).mapM e.child := by
  induction is generalizing tris with
  | nil =>
      cases hT
      rfl
  | cons i is ih =>
      rw [List.mapM_cons] at hT
      obtain ⟨tri, hi, hT⟩ := bind_eq_ok_iff.mp hT
      obtain ⟨rest, hrest, hT⟩ := bind_eq_ok_iff.mp hT
      cases hT
      rw [List.map_cons, List.mapM_cons, List.mapM_cons, ofFactors_eq_child he hi hN, ih hrest]

theorem childrenAtFace_side (hf : f < 3) : e.childrenAtFace f = (do
    let tris ← e.tri.childrenAtFace f
    let lower ← e.line.child 0
    let lowerPrisms ← tris.mapM (ofFactors · lower)
    let upper ← e.line.child 1
    let upperPrisms ← tris.mapM (ofFactors · upper)
    return lowerPrisms ++ upperPrisms) := by
  interval_cases f <;> rfl

theorem onFace_side {t : Nat} (hf : f < 3) : (layout.onFace t f).map Prod.fst =
    ((Triangle.layout.onFace t f).map Prod.fst).map (· + 4 * 0) ++
      ((Triangle.layout.onFace t f).map Prod.fst).map (· + 4 * 1) := by
  interval_cases f <;> simp [layout, Function.comp_def]

theorem childrenAtFace_eq (he : e.Valid) (hl : e.tri.level < depth) (hf : f < 5) :
    e.childrenAtFace f = ((layout.onFace e.tri.type f).map Prod.fst).mapM e.child := by
  by_cases side : f < 3
  · have deepT : e.tri.level < Element.finest Triangle := Nat.lt_trans hl (by decide)
    have deepN : e.line.level < Line.depth := he.1 ▸ Nat.lt_trans hl (by decide)
    obtain ⟨tris, hT, made⟩ := Element.exists_childrenAtFace he.tri rfl deepT side
    have made : ((Triangle.layout.onFace e.tri.type f).map Prod.fst).mapM (Kuhn.child e.tri) =
        .ok tris := made
    have lower := Line.child_eq deepN Nat.two_pos
    have upper := Line.child_eq deepN Nat.one_lt_two
    have first := mapM_child_storey he made lower
    have second := mapM_child_storey he made upper
    have hT : e.tri.childrenAtFace f = .ok tris := hT
    rw [onFace_side side, List.mapM_append, ← first, ← second, childrenAtFace_side side, hT, lower,
      upper]
    simp only [ok_bind]
  · obtain rfl | rfl : f = 3 ∨ f = 4 := by omega
    · rfl
    · rfl

theorem face_of_onFace {t : Nat} {x : Nat × Nat} (ht : t < 2) (hf : f < 5)
    (hx : x ∈ layout.onFace t f) : x.2 = f := by
  revert x
  interval_cases t <;> interval_cases f <;> decide

theorem length_onFace {t : Nat} (ht : t < 2) (hf : f < 5) : (layout.onFace t f).length = 4 := by
  interval_cases t <;> interval_cases f <;> rfl

instance : Element.Grid Prism where
  Corner := Place
  layout := layout
  site := toSite
  ofSite := ofSite
  axes e := Element.axes e.tri ++ Element.axes e.line

theorem inCube_iff : Element.InCube e ↔ Element.InCube e.tri ∧ Element.InCube e.line := by
  simp only [Element.InCube, Element.axes, List.forall_mem_append]

theorem exists_ofSite_beyond (he : e.Valid) (cube : Element.InCube e) (hf : f < 5) :
    ∃ n, ofSite e.tri.level (layout.beyond e.toSite f).1 = .ok n := by
  obtain ⟨cubeT, cubeN⟩ := inCube_iff.mp cube
  have ownT : Triangle.ofSite e.tri.level e.tri.toSite = .ok e.tri :=
    Element.ofSite_site he.tri rfl
  have ownN : Line.ofSite e.tri.level e.line.toSite = .ok e.line :=
    Element.ofSite_site he.line (congrArg Except.ok he.1.symm)
  by_cases side : f < 3
  · obtain ⟨tri, hT⟩ := Element.exists_ofSite_beyond he.tri rfl cubeT side
    rw [beyond_side side]
    exact ⟨_, bind_eq_ok_iff.mpr ⟨tri, hT, bind_eq_ok_iff.mpr ⟨e.line, ownN, rfl⟩⟩⟩
  · obtain ⟨g, rfl⟩ := Nat.exists_eq_add_of_le (Nat.le_of_not_lt side)
    have hg : g < 2 := by omega
    obtain ⟨line, hN⟩ := Element.exists_ofSite_beyond he.line rfl cubeN hg
    rw [beyond_end hg]
    exact ⟨_, bind_eq_ok_iff.mpr ⟨e.tri, ownT, bind_eq_ok_iff.mpr ⟨line, he.1 ▸ hN, rfl⟩⟩⟩

instance : Element.LawfulGrid Prism where
  pattern_conforms := layout_conforms
  type_lt he := he.tri.2.1
  ofSite_eq_ok_iff := ofSite_eq_ok_iff
  onlyOverflows_ofSite := onlyOverflows_ofSite
  site_child := toSite_child
  faceNeighbor_eq {e l f} he hl hf := by
    cases he.level_eq.symm.trans hl
    exact faceNeighbor_eq he hf
  childrenAtFace_eq {e l f} he hl hlt hf := by
    cases he.level_eq.symm.trans hl
    exact childrenAtFace_eq he hlt hf
  faceChildFace_eq he hf hx :=
    congrArg Except.ok (face_of_onFace he.tri.2.1 hf (List.mem_of_getElem? hx)).symm
  numFaceChildren_eq {e f} he hf := bind_eq_ok_iff.mpr
    ⟨(), require_of_true hf, congrArg Except.ok (length_onFace he.tri.2.1 hf).symm⟩
  inCube_root := by decide
  inCube_child {e c i} he cube hc := by
    obtain ⟨_, _, _, hT, hN⟩ := child_eq_ok_iff.mp hc
    obtain ⟨cubeT, cubeN⟩ := inCube_iff.mp cube
    exact inCube_iff.mpr
      ⟨Element.inCube_child he.tri cubeT hT, Element.inCube_child he.line cubeN hN⟩
  exists_ofSite_beyond {e l f} he hl cube hf := by
    cases he.level_eq.symm.trans hl
    exact exists_ofSite_beyond he cube hf

end MeshCurve.Prism
