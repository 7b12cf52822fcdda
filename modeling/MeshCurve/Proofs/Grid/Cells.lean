import MeshCurve.Proofs.Curve
import MeshCurve.Proofs.Grid.Pattern

/-!
# Cells on a grid

A cell is known by its level and its site.  The operations on faces and children read
the pattern of the shape, so what they do to cells follows from what the pattern does
to sites.
-/

namespace MeshCurve.Element

/-- Where the elements of a shape lie. -/
class Grid (E : Type) where
  Corner : Type
  [group : AddCommGroup Corner]
  layout : Pattern Corner
  site : E → Site Corner
  /-- the cell of a level at a site, if its coordinates fit their words -/
  ofSite : (level : Nat) → Site Corner → Except Fault E
  /-- the coordinates of the anchor, each with the depth of its axis -/
  axes : E → List (Int × Nat)

export Grid (Corner site ofSite axes)

instance (E : Type) [Grid E] : AddCommGroup (Corner E) := Grid.group

abbrev pattern (E : Type) [Grid E] : Pattern (Corner E) := Grid.layout

/-- The anchor lies in the cube that the root starts from. -/
def InCube {E : Type} [Grid E] (e : E) : Prop := ∀ c ∈ axes e, 0 ≤ c.1 ∧ c.1 < 2 ^ c.2

instance {E : Type} [Grid E] (e : E) : Decidable (InCube e) :=
  inferInstanceAs (Decidable (∀ c ∈ axes e, _))

/-- What a shape has to prove about its faces. -/
class LawfulGrid (E : Type) [Element E] [Grid E] : Prop extends LawfulForest E where
  pattern_conforms : (pattern E).Conforms (shape E)
  type_lt {e : E} : Valid e → (site e).type < (shape E).numTypes
  ofSite_eq_ok_iff {l : Nat} {q : Site (Corner E)} {e : E} : l ≤ finest E →
    q.type < (shape E).numTypes → (ofSite l q = .ok e ↔ Valid e ∧ level e = .ok l ∧ site e = q)
  onlyOverflows_ofSite (l : Nat) (q : Site (Corner E)) : OnlyOverflows (ofSite (E := E) l q)
  site_child {e c : E} {i : Nat} : Valid e → child e i = .ok c →
    site c = (site e).zoom ((pattern E).child (site e).type i)
  faceNeighbor_eq {e : E} {l f : Nat} : Valid e → level e = .ok l → f < (shape E).numFaces →
    faceNeighbor e f = (ofSite l ((pattern E).beyond (site e) f).1 >>= fun n =>
      .ok (n, ((pattern E).beyond (site e) f).2))
  childrenAtFace_eq {e : E} {l f : Nat} : Valid e → level e = .ok l → l < finest E →
    f < (shape E).numFaces →
      childrenAtFace e f = (((pattern E).onFace (site e).type f).map Prod.fst).mapM (child e)
  faceChildFace_eq {e : E} {f k : Nat} {x : Nat × Nat} : Valid e → f < (shape E).numFaces →
    ((pattern E).onFace (site e).type f)[k]? = some x → faceChildFace e f k = .ok x.2
  numFaceChildren_eq {e : E} {f : Nat} : Valid e → f < (shape E).numFaces →
    numFaceChildren e f = .ok ((pattern E).onFace (site e).type f).length
  inCube_root : InCube (root : E)
  inCube_child {e c : E} {i : Nat} : Valid e → InCube e → child e i = .ok c → InCube c
  exists_ofSite_beyond {e : E} {l f : Nat} : Valid e → level e = .ok l → InCube e →
    f < (shape E).numFaces → ∃ n, ofSite (E := E) l ((pattern E).beyond (site e) f).1 = .ok n

export LawfulGrid (pattern_conforms type_lt ofSite_eq_ok_iff onlyOverflows_ofSite site_child
  faceNeighbor_eq childrenAtFace_eq faceChildFace_eq numFaceChildren_eq inCube_root
  inCube_child exists_ofSite_beyond)

section

variable {E : Type} [Element E] [Grid E] [LawfulGrid E] {e n c m : E} {l f d g h i k : Nat}

theorem ofSite_site (he : Valid e) (hl : level e = .ok l) : ofSite l (site e) = .ok e := by
  obtain ⟨_, fits, level⟩ := level_of_valid he
  cases hl.symm.trans level
  exact (ofSite_eq_ok_iff fits (type_lt he)).mpr ⟨he, hl, rfl⟩

theorem eq_of_site (hn : Valid n) (hm : Valid m) (levelN : level n = .ok l)
    (levelM : level m = .ok l) (same : site n = site m) : n = m := by
  have here := ofSite_site hn levelN
  rw [same, ofSite_site hm levelM] at here
  exact (Except.ok.inj here).symm

theorem inCube_of_inRoot [LawfulNumbering E] (he : InRoot e) : InCube e := by
  obtain ⟨l, i, h⟩ := inRoot_iff.mp he
  induction h with
  | here => exact inCube_root
  | child h _ hc ih => exact inCube_child h.valid_of_root (ih h.inRoot) hc

/-! ## Neighbours -/

theorem type_beyond_lt (he : Valid e) (hf : f < (shape E).numFaces) :
    ((pattern E).beyond (site e) f).1.type < (shape E).numTypes :=
  pattern_conforms.across_type _ (type_lt he) f hf

theorem faceNeighbor_eq_ok_iff (he : Valid e) (hl : level e = .ok l)
    (hf : f < (shape E).numFaces) :
    faceNeighbor e f = .ok (n, d) ↔
      Valid n ∧ level n = .ok l ∧ (site n, d) = (pattern E).beyond (site e) f := by
  obtain ⟨_, fits, level⟩ := level_of_valid he
  cases hl.symm.trans level
  have place := ofSite_eq_ok_iff (e := n) fits (type_beyond_lt he hf)
  rw [faceNeighbor_eq he hl hf, bind_eq_ok_iff, Prod.ext_iff]
  constructor
  · rintro ⟨n', there, same⟩
    cases same
    obtain ⟨hn, levelN, site⟩ := place.mp there
    exact ⟨hn, levelN, site, rfl⟩
  · rintro ⟨hn, levelN, site, dual⟩
    exact ⟨n, place.mpr ⟨hn, levelN, site⟩, by rw [← dual]⟩

theorem exists_faceNeighbor_of_ne (he : Valid e) (hf : f < (shape E).numFaces)
    (room : faceNeighbor e f ≠ .error .range) : ∃ n d, faceNeighbor e f = .ok (n, d) := by
  obtain ⟨l, _, hl⟩ := level_of_valid he
  rw [faceNeighbor_eq he hl hf] at room ⊢
  cases there : ofSite (E := E) l ((pattern E).beyond (site e) f).1 with
  | ok n => exact ⟨n, _, rfl⟩
  | error x =>
      rw [there, error_bind, onlyOverflows_ofSite l _ x there] at room
      exact absurd rfl room

theorem exists_faceNeighbor (he : Valid e) (cube : InCube e) (hf : f < (shape E).numFaces) :
    ∃ n d, faceNeighbor e f = .ok (n, d) := by
  obtain ⟨l, _, hl⟩ := level_of_valid he
  obtain ⟨n, there⟩ := exists_ofSite_beyond he hl cube hf
  rw [faceNeighbor_eq he hl hf, there, ok_bind]
  exact ⟨n, _, rfl⟩

/-- Stepping across a face and back leads to the start. -/
theorem faceNeighbor_back (he : Valid e) (hf : f < (shape E).numFaces)
    (hn : faceNeighbor e f = .ok (n, d)) :
    Valid n ∧ level n = level e ∧ n ≠ e ∧ d < (shape E).numFaces ∧
      faceNeighbor n d = .ok (e, f) := by
  obtain ⟨l, _, hl⟩ := level_of_valid he
  obtain ⟨validN, levelN, there⟩ := (faceNeighbor_eq_ok_iff he hl hf).mp hn
  have siteN : site n = ((pattern E).beyond (site e) f).1 := congrArg Prod.fst there
  have dual : d = ((pattern E).beyond (site e) f).2 := congrArg Prod.snd there
  have hd : d < (shape E).numFaces := dual ▸ pattern_conforms.across_face _ (type_lt he) f hf
  have back : (pattern E).beyond (site n) d = (site e, f) := by
    rw [siteN, dual]
    exact pattern_conforms.beyond_beyond (type_lt he) hf
  refine ⟨validN, levelN.trans hl.symm, ?_, hd, ?_⟩
  · rintro rfl
    exact pattern_conforms.beyond_ne (type_lt he) hf siteN.symm
  · exact (faceNeighbor_eq_ok_iff validN levelN hd).mpr ⟨he, hl, back.symm⟩

/-! ## Children -/

theorem child_eq_ok_iff_site (he : Valid e) (hl : level e = .ok l) (hlt : l < finest E)
    (hi : i < branching E) :
    child e i = .ok c ↔ Valid c ∧ level c = .ok (l + 1) ∧
      site c = (site e).zoom ((pattern E).child (site e).type i) := by
  constructor
  · intro hc
    exact ⟨(of_child he hc).1, (Descends.single hi hc).level hl, site_child he hc⟩
  · rintro ⟨validC, levelC, siteC⟩
    obtain ⟨c', hc', validC', _⟩ := child_of_valid he hl hlt hi
    have levelC' := (Descends.single hi hc').level hl
    have same := eq_of_site validC validC' levelC levelC' (siteC.trans (site_child he hc').symm)
    rw [same, hc']

theorem mem_children_iff_site {cs : List E} (he : Valid e) (hl : level e = .ok l)
    (hcs : children e = .ok cs) (validC : Valid c) (levelC : level c = .ok (l + 1)) {b}
    (siteC : site c = (site e).zoom b) :
    c ∈ cs ↔ ∃ i < branching E, (pattern E).child (site e).type i = b := by
  have hlt := level_lt_of_children hcs hl
  rw [mem_children_iff hcs]
  refine exists_congr fun i => and_congr_right fun hi => ?_
  rw [child_eq_ok_iff_site he hl hlt hi, siteC]
  simp [validC, levelC, eq_comm]

/-! ## Faces of children -/

/-- Face `g` of `c` is part `k` of face `f` of `e`. -/
def OnFace (e : E) (f k : Nat) (c : E) (g : Nat) : Prop :=
  f < (shape E).numFaces ∧ (∃ cs, childrenAtFace e f = .ok cs ∧ cs[k]? = some c) ∧
    faceChildFace e f k = .ok g

theorem exists_childrenAtFace (he : Valid e) (hl : level e = .ok l) (hlt : l < finest E)
    (hf : f < (shape E).numFaces) :
    ∃ cs, childrenAtFace e f = .ok cs ∧
      (((pattern E).onFace (site e).type f).map Prod.fst).mapM (child e) = .ok cs := by
  have each : ∀ i ∈ ((pattern E).onFace (site e).type f).map Prod.fst, ∃ c, child e i = .ok c := by
    intro i hi
    obtain ⟨x, hx, rfl⟩ := List.mem_map.mp hi
    have small := pattern_conforms.onFace_lt _ (type_lt he) f hf x hx
    obtain ⟨c, hc, _⟩ := child_of_valid he hl hlt small
    exact ⟨c, hc⟩
  obtain ⟨cs, hcs⟩ := exists_mapM_eq_ok each
  exact ⟨cs, (childrenAtFace_eq he hl hlt hf).trans hcs, hcs⟩

theorem mapM_childId_of_mapM_child {is : List Nat} {cs : List E} (he : Valid e)
    (h : is.mapM (child e) = .ok cs) : cs.mapM childId = .ok is := by
  induction is generalizing cs with
  | nil =>
      cases h
      rfl
  | cons i is ih =>
      rw [List.mapM_cons] at h
      obtain ⟨c, hc, h⟩ := bind_eq_ok_iff.mp h
      obtain ⟨rest, hrest, h⟩ := bind_eq_ok_iff.mp h
      cases h
      rw [List.mapM_cons, (of_child he hc).2.2, ok_bind, ih hrest, ok_bind, pure_eq_ok]

theorem onFace_iff (he : Valid e) (hl : level e = .ok l) (hlt : l < finest E)
    (hc : child e i = .ok c) :
    OnFace e f k c g ↔
      f < (shape E).numFaces ∧ ((pattern E).onFace (site e).type f)[k]? = some (i, g) := by
  refine and_congr_right fun hf => ?_
  obtain ⟨cs, hcs, made⟩ := exists_childrenAtFace he hl hlt hf
  constructor
  · rintro ⟨⟨cs', hcs', at'⟩, face⟩
    cases hcs.symm.trans hcs'
    have bound : k < ((pattern E).onFace (site e).type f).length := by
      have := (List.getElem?_eq_some_iff.mp at').1
      rw [length_of_mapM_eq_ok made, List.length_map] at this
      exact this
    have entry := List.getElem?_eq_getElem bound
    generalize ((pattern E).onFace (site e).type f)[k] = x at entry
    have number : (((pattern E).onFace (site e).type f).map Prod.fst)[k]? = some x.1 := by
      simp [entry]
    obtain ⟨c', at'', hc'⟩ := getElem?_of_mapM_eq_ok made number
    cases at'.symm.trans at''
    have first := Except.ok.inj ((of_child he hc).2.2.symm.trans (of_child he hc').2.2)
    have second := Except.ok.inj (face.symm.trans (faceChildFace_eq he hf entry))
    rw [entry, first, second]
  · intro entry
    have number : (((pattern E).onFace (site e).type f).map Prod.fst)[k]? = some i := by
      simp [entry]
    obtain ⟨c', at', hc'⟩ := getElem?_of_mapM_eq_ok made number
    cases hc.symm.trans hc'
    exact ⟨⟨cs, hcs, at'⟩, faceChildFace_eq he hf entry⟩

/-! ## Conformity -/

/-- A face of a child lies between siblings or on the boundary of the parent. -/
theorem neighbor_mem_children_iff {cs : List E} (he : Valid e) (hcs : children e = .ok cs)
    (hc : child e i = .ok c) (hg : g < (shape E).numFaces) (hm : faceNeighbor c g = .ok (m, h)) :
    m ∈ cs ↔ ¬ ∃ f k, OnFace e f k c g := by
  obtain ⟨l, _, hl⟩ := level_of_valid he
  obtain ⟨hlt, hi⟩ := bounds_of_child hc hl
  have validC := (of_child he hc).1
  have levelC := (Descends.single hi hc).level hl
  obtain ⟨validM, levelM, there⟩ := (faceNeighbor_eq_ok_iff validC levelC hg).mp hm
  have siteM : site m =
      (site e).zoom ((pattern E).beyond ((pattern E).child (site e).type i) g).1 := by
    rw [site_child he hc, Pattern.beyond_zoom] at there
    exact congrArg Prod.fst there
  rw [mem_children_iff_site he hl hcs validM levelM siteM,
    pattern_conforms.inner_or_outer _ (type_lt he) i hi g hg]
  simp only [onFace_iff he hl hlt hc, List.mem_iff_getElem?, exists_and_left]

theorem existsUnique_onFace (he : Valid e) (hc : child e i = .ok c) (h : OnFace e f k c g) :
    ∃! fk : Nat × Nat, OnFace e fk.1 fk.2 c g := by
  obtain ⟨l, _, hl⟩ := level_of_valid he
  obtain ⟨hlt, _⟩ := bounds_of_child hc hl
  have place {f k : Nat} := onFace_iff (f := f) (k := k) (g := g) he hl hlt hc
  obtain ⟨hf, at'⟩ := place.mp h
  refine ⟨(f, k), h, ?_⟩
  rintro ⟨f', k'⟩ h'
  obtain ⟨hf', at''⟩ := place.mp h'
  obtain rfl := pattern_conforms.onFace_unique _ (type_lt he) f hf f' hf' (i, g)
    (List.mem_of_getElem? at') (List.mem_of_getElem? at'')
  obtain rfl := pattern_conforms.onFace_getElem?_inj (type_lt he) hf at' at''
  rfl

/-- The neighbour of a child across the boundary of the parent is a child of the
parent's neighbour, and its face is part of the face between the parents. -/
theorem matched_of_onFace (he : Valid e) (hc : child e i = .ok c)
    (hg : g < (shape E).numFaces) (hm : faceNeighbor c g = .ok (m, h))
    (hn : faceNeighbor e f = .ok (n, d)) (on : OnFace e f k c g) :
    parent m = .ok n ∧ ∃ k', OnFace n d k' m h := by
  obtain ⟨l, _, hl⟩ := level_of_valid he
  obtain ⟨hlt, hi⟩ := bounds_of_child hc hl
  have validC := (of_child he hc).1
  have levelC := (Descends.single hi hc).level hl
  obtain ⟨hf, entry⟩ := (onFace_iff he hl hlt hc).mp on
  obtain ⟨validM, levelM, small⟩ := (faceNeighbor_eq_ok_iff validC levelC hg).mp hm
  obtain ⟨validN, levelN, large⟩ := (faceNeighbor_eq_ok_iff he hl hf).mp hn
  obtain ⟨y, hy, meet⟩ := pattern_conforms.matched _ (type_lt he) f hf (i, g)
    (List.mem_of_getElem? entry)
  rw [site_child he hc, Pattern.beyond_zoom, meet] at small
  have siteN : site n = (site e).shift ((pattern E).across (site e).type f).1 :=
    congrArg Prod.fst large
  have dual : d = ((pattern E).across (site e).type f).2 := congrArg Prod.snd large
  have hd : d < (shape E).numFaces :=
    dual ▸ pattern_conforms.across_face _ (type_lt he) f hf
  have typeN : (site n).type = ((pattern E).across (site e).type f).1.type := by
    rw [siteN, Site.type_shift]
  -- From here on the pattern is read from the other side of the face, at `n`.
  rw [← typeN, ← dual] at hy
  rw [← typeN] at small
  have hj := pattern_conforms.onFace_lt _ (type_lt validN) d hd y hy
  have siteM : site m = (site n).zoom ((pattern E).child (site n).type y.1) := by
    have first : site m = _ := congrArg Prod.fst small
    rw [first, ← Site.shift_zoom, ← siteN]
  have hcm := (child_eq_ok_iff_site validN levelN hlt hj).mpr ⟨validM, levelM, siteM⟩
  have second : h = y.2 := congrArg Prod.snd small
  obtain ⟨k', hk'⟩ := List.mem_iff_getElem?.mp hy
  refine ⟨(of_child validN hcm).2.1, k', (onFace_iff validN levelN hlt hcm).mpr ⟨hd, ?_⟩⟩
  rw [hk', second]

theorem childrenAtFace_sorted (he : Valid e) (hl : level e = .ok l) (hlt : l < finest E)
    (hf : f < (shape E).numFaces) :
    ∃ cs numbers, childrenAtFace e f = .ok cs ∧ numFaceChildren e f = .ok cs.length ∧
      cs.mapM childId = .ok numbers ∧ numbers.Pairwise (· < ·) ∧
      ∀ c ∈ cs, ∃ i, child e i = .ok c := by
  obtain ⟨cs, hcs, made⟩ := exists_childrenAtFace he hl hlt hf
  have sorted := pattern_conforms.onFace_sorted _ (type_lt he) f hf
  refine ⟨cs, _, hcs, ?_, mapM_childId_of_mapM_child he made, List.pairwise_map.mpr sorted, ?_⟩
  · rw [numFaceChildren_eq he hf, length_of_mapM_eq_ok made, List.length_map]
  · intro c hc
    obtain ⟨i, _, hi⟩ := exists_of_mem_of_mapM_eq_ok made hc
    exact ⟨i, hi⟩

end

end MeshCurve.Element
