import MeshCurve.Cell.Kuhn
import MeshCurve.Proofs.Cell.Anchor
import MeshCurve.Proofs.Curve

/-!
# The tree of Kuhn simplices

The four tables describe one relation: child `i` of a simplex of type `t` sits in a
cube and has a type of its own.  The relation is a bijection between pairs `(t, i)`
and pairs of cube and type, so that going down and going up are inverse.
-/

namespace MeshCurve.Kuhn

open Element

/-! ## The tables as one relation -/

section

variable (K : Type) [Kuhn K]

/-- Child `i` of type `t` sits in `cube` and has type `t'`, in all four tables. -/
def Link (t i cube t' : Nat) : Prop :=
  ((childCubes K).entry t i = .ok cube ∧ (childTypes K).entry t i = .ok t') ∧
    (parentTypes K).entry cube t' = .ok t ∧ (localIndices K).entry t' cube = .ok i

instance (t i cube t' : Nat) : Decidable (Link K t i cube t') :=
  inferInstanceAs (Decidable ((_ ∧ _) ∧ _ ∧ _))

/-- What a dimension has to prove about its record and its tables. -/
class LawfulKuhn : Prop where
  depth_le : depth K ≤ 30
  dimension_le : (shape K).dimension ≤ 8
  length_coords (e : K) : (coords e).length = (shape K).dimension
  ext {a b : K} : coords a = coords b → type a = type b → level a = level b → a = b
  coords_mapCoords (f : Nat → Int → Int) (e : K) : coords (mapCoords f e) = (coords e).mapIdx f
  type_mapCoords (f : Nat → Int → Int) (e : K) : type (mapCoords f e) = type e
  level_mapCoords (f : Nat → Int → Int) (e : K) : level (mapCoords f e) = level e
  coords_retype (e : K) (t l : Nat) : coords (retype e t l) = coords e
  type_retype (e : K) (t l : Nat) : type (retype e t l) = t
  level_retype (e : K) (t l : Nat) : level (retype e t l) = l
  link_down : ∀ t < (shape K).numTypes, ∀ i < (shape K).numChildren,
    ∃ cube < (shape K).numChildren, ∃ t' < (shape K).numTypes, Link K t i cube t'
  link_up : ∀ cube < (shape K).numChildren, ∀ t' < (shape K).numTypes,
    ∃ t < (shape K).numTypes, ∃ i < (shape K).numChildren, Link K t i cube t'
  link_first : ∀ t < (shape K).numTypes, Link K t 0 0 t

/-- The elements of the shape are navigated as Kuhn simplices. -/
class KuhnElement [DecidableEq K] [Element K] : Prop where
  shape_eq : Element.shape K = shape K
  root_eq : (Element.root : K) = root
  level_eq (e : K) : Element.level e = .ok (level e)
  parent_eq : (Element.parent : K → _) = parent
  child_eq : (Element.child : K → _) = child
  childId_eq : (Element.childId : K → _) = childId
  ancestor_eq : (Element.ancestor : K → _) = ancestor
  isFamily_eq : (Element.isFamily : List K → _) = isFamily
  linearId_eq : (Element.linearId : K → _) = linearId
  ofLinearId_eq : (Element.ofLinearId : _ → _ → Except Fault K) = ofLinearId
  successor_eq : (Element.successor : K → _) = successor
  firstDescendant_eq : (Element.firstDescendant : K → _) = firstDescendant
  valid_iff (e : K) : Element.Valid e ↔ Valid e

end

export LawfulKuhn (depth_le dimension_le length_coords coords_mapCoords type_mapCoords
  level_mapCoords coords_retype type_retype level_retype link_down link_up link_first)

attribute [simp] LawfulKuhn.coords_mapCoords LawfulKuhn.type_mapCoords
  LawfulKuhn.level_mapCoords LawfulKuhn.coords_retype LawfulKuhn.type_retype
  LawfulKuhn.level_retype

/-! ## Placing in cubes -/

section

variable {K : Type} [Kuhn K]

def pos (K : Type) [Kuhn K] (level : Nat) : Nat := depth K - level

/-- The cube of `level` that the anchor lies in. -/
def cubeOf (e : K) (level : Nat) : Nat := Coord.ofBits ((coords e).map (Coord.bit · (pos K level)))

def placed (e : K) (level cube : Nat) : K :=
  mapCoords (fun axis c => Coord.setBit c (pos K level) (cube >>> axis % 2)) e

variable {e : K} {l m cube : Nat}

theorem cubeOf_eq (e : K) (l : Nat) : cubeOf e l = Coord.cubeAt (coords e) (pos K l) := rfl

theorem pos_eq_succ (h : l < depth K) : pos K l = pos K (l + 1) + 1 := by
  unfold pos
  omega

theorem pos_lt_of_lt (hm : m < l) (hl : l ≤ depth K) : pos K l < pos K m := by
  unfold pos
  omega

theorem Valid.aligned (h : Valid e) : ∀ c ∈ coords e, Coord.Aligned c (pos K (level e)) := h.2.2

theorem Valid.aligned_succ (h : Valid e) (hl : level e < depth K) :
    ∀ c ∈ coords e, Coord.Aligned c (pos K (level e + 1) + 1) := pos_eq_succ hl ▸ h.aligned

theorem typeFrom_self (e : K) (t l : Nat) : typeFrom e t l l = .ok t := by
  cases l with
  | zero => rfl
  | succ l =>
      rw [typeFrom, if_pos le_rfl]
      rfl

variable [LawfulKuhn K]

theorem pos_lt (K : Type) [Kuhn K] [LawfulKuhn K] (level : Nat) : pos K level < 31 :=
  Nat.lt_succ_of_le ((Nat.sub_le _ level).trans (depth_le (K := K)))

theorem numChildren_eq (e : K) : (shape K).numChildren = 2 ^ (coords e).length := by
  rw [Shape.numChildren_eq_shiftLeft, Nat.one_shiftLeft, length_coords]

theorem cubeOf_lt (e : K) (level : Nat) : cubeOf e level < (shape K).numChildren := by
  rw [numChildren_eq e]
  exact Coord.cubeAt_lt (coords e) (pos K level)

theorem cubeId_eq (h0 : 0 < l) (hl : l ≤ depth K) (e : K) : cubeId e l = .ok (cubeOf e l) :=
  Coord.cubeId_eq depth_le h0 hl ((length_coords e).le.trans dimension_le)

theorem withCubeId_eq (hl : l ≤ depth K) (e : K) (cube : Nat) :
    withCubeId e l cube = .ok (placed e l cube) := by
  rw [withCubeId, Coord.place_eq depth_le hl, ok_bind, pure_eq_ok]
  rfl

@[simp] theorem type_placed (e : K) (l cube : Nat) : type (placed e l cube) = type e := by
  simp [placed]

@[simp] theorem level_placed (e : K) (l cube : Nat) : level (placed e l cube) = level e := by
  simp [placed]

@[simp] theorem coords_placed (e : K) (l cube : Nat) :
    coords (placed e l cube) = Coord.stamp cube (pos K l) (coords e) :=
  coords_mapCoords _ e

@[simp] theorem cubeOf_retype (e : K) (t k l : Nat) : cubeOf (retype e t k) l = cubeOf e l := by
  simp [cubeOf]

@[simp] theorem placed_retype (e : K) (t k l cube : Nat) :
    placed (retype e t k) l cube = retype (placed e l cube) t k :=
  LawfulKuhn.ext (by simp) (by simp) (by simp)

@[simp] theorem retype_retype (e : K) (t k t' k' : Nat) :
    retype (retype e t k) t' k' = retype e t' k' :=
  LawfulKuhn.ext (by simp) (by simp) (by simp)

theorem cubeOf_placed (hc : cube < (shape K).numChildren) (e : K) (l : Nat) :
    cubeOf (placed e l cube) l = cube := by
  rw [cubeOf_eq, coords_placed, Coord.cubeAt_stamp (pos_lt K l), ← numChildren_eq,
    Nat.mod_eq_of_lt hc]

theorem cubeOf_placed_of_lt (hm : m < l) (hl : l ≤ depth K) (e : K) (cube : Nat) :
    cubeOf (placed e l cube) m = cubeOf e m := by
  rw [cubeOf_eq, coords_placed, Coord.cubeAt_stamp_of_lt (pos_lt K l) (pos_lt_of_lt hm hl),
    cubeOf_eq]

theorem placed_placed (e : K) (l cube cube' : Nat) :
    placed (placed e l cube) l cube' = placed e l cube' := by
  refine LawfulKuhn.ext ?_ (by simp) (by simp)
  rw [coords_placed, coords_placed, coords_placed, Coord.stamp_stamp (pos_lt K l)]

theorem placed_cubeOf (e : K) (l : Nat) : placed e l (cubeOf e l) = e := by
  refine LawfulKuhn.ext ?_ (by simp) (by simp)
  rw [coords_placed]
  exact Coord.stamp_cubeAt (pos K l) (coords e)

theorem placed_zero (h : ∀ c ∈ coords e, Coord.Aligned c (pos K l + 1)) : placed e l 0 = e := by
  refine LawfulKuhn.ext ?_ (by simp) (by simp)
  rw [coords_placed, Coord.stamp_zero_of_aligned h]

@[simp] theorem retype_self (e : K) : retype e (type e) (level e) = e :=
  LawfulKuhn.ext (by simp) (by simp) (by simp)

/-! ## Going up and down -/

theorem childId_eq (h0 : 0 < level e) (hl : level e ≤ depth K) :
    childId e = (localIndices K).entry (type e) (cubeOf e (level e)) := by
  rw [childId, if_neg h0.ne', cubeId_eq h0 hl, ok_bind]

theorem child_eq {i t' : Nat} (hl : level e < depth K) (hi : i < (shape K).numChildren)
    (link : Link K (type e) i cube t') :
    child e i = .ok (retype (placed e (level e + 1) cube) t' (level e + 1)) := by
  rw [child, require_of_true hi, ok_bind, require_of_true hl, ok_bind, link.1.1, ok_bind,
    withCubeId_eq hl, ok_bind, link.1.2, ok_bind, pure_eq_ok]

theorem parent_eq {t i : Nat} (h0 : 0 < level e) (hl : level e ≤ depth K)
    (link : Link K t i (cubeOf e (level e)) (type e)) :
    parent e = .ok (retype (placed e (level e) 0) t (level e - 1)) := by
  rw [parent, require_of_true h0, ok_bind, cubeId_eq h0 hl, ok_bind, link.2.1, ok_bind,
    withCubeId_eq hl, ok_bind, pure_eq_ok]

theorem exists_link_of_child {c : K} {i : Nat} (he : Valid e) (h : child e i = .ok c) :
    level e < depth K ∧
      ∃ cube < (shape K).numChildren, ∃ t' < (shape K).numTypes,
        Link K (type e) i cube t' ∧ c = retype (placed e (level e + 1) cube) t' (level e + 1) := by
  obtain ⟨hi, h'⟩ := of_require_bind h
  obtain ⟨hl, _⟩ := of_require_bind h'
  obtain ⟨cube, hcube, t', ht', link⟩ := link_down (type e) he.2.1 i hi
  rw [child_eq hl hi link] at h
  exact ⟨hl, cube, hcube, t', ht', link, (Except.ok.inj h).symm⟩

theorem valid_child {t' : Nat} (he : Valid e) (hl : level e < depth K)
    (ht' : t' < (shape K).numTypes) (cube : Nat) :
    Valid (retype (placed e (level e + 1) cube) t' (level e + 1)) := by
  refine ⟨by rwa [level_retype], by rwa [type_retype], ?_⟩
  rw [coords_retype, coords_placed, level_retype]
  exact Coord.forall_mem_stamp fun c hc b hb =>
    (he.aligned_succ hl c hc).setBit_fine (pos_lt K _) hb

theorem valid_parent {t : Nat} (he : Valid e) (h0 : 0 < level e) (ht : t < (shape K).numTypes) :
    Valid (retype (placed e (level e) 0) t (level e - 1)) := by
  have hl := he.1
  refine ⟨?_, by simpa using ht, ?_⟩
  · rw [level_retype]
    exact (Nat.sub_le _ 1).trans hl
  · intro c hc
    rw [coords_retype, coords_placed, Coord.stamp_zero] at hc
    obtain ⟨x, hx, rfl⟩ := List.mem_map.mp hc
    have coarse := (he.aligned x hx).setBit_zero (pos_lt K _)
    have up : pos K (level e - 1) = pos K (level e) + 1 := by
      rw [pos_eq_succ (by omega), Nat.sub_add_cancel h0]
    rw [← up] at coarse
    rw [level_retype]
    exact coarse

theorem exists_child (he : Valid e) (hl : level e < depth K) {i : Nat}
    (hi : i < (shape K).numChildren) :
    ∃ c, child e i = .ok c ∧ Valid c ∧ parent c = .ok e ∧ childId c = .ok i := by
  obtain ⟨cube, hcube, t', ht', link⟩ := link_down (type e) he.2.1 i hi
  have own : cubeOf (retype (placed e (level e + 1) cube) t' (level e + 1)) (level e + 1) =
      cube := by
    rw [cubeOf_retype, cubeOf_placed hcube]
  refine ⟨_, child_eq hl hi link, valid_child he hl ht' cube, ?_, ?_⟩
  · rw [parent_eq (t := type e) (i := i)]
    · simp [placed_placed, placed_zero (he.aligned_succ hl)]
    · simp
    · rwa [level_retype]
    · simpa [own] using link
  · rw [childId_eq]
    · simpa [own] using link.2.2
    · simp
    · rwa [level_retype]

theorem exists_parent (he : Valid e) (h0 : 0 < level e) :
    ∃ p, ∃ i < (shape K).numChildren, parent e = .ok p ∧ childId e = .ok i ∧ Valid p ∧
      child p i = .ok e := by
  obtain ⟨t, ht, i, hi, link⟩ := link_up (cubeOf e (level e)) (cubeOf_lt e _) (type e) he.2.1
  refine ⟨_, i, hi, parent_eq h0 he.1 link, ?_, valid_parent he h0 ht, ?_⟩
  · rw [childId_eq h0 he.1, link.2.2]
  · have hlt : level (retype (placed e (level e) 0) t (level e - 1)) < depth K := by
      have := he.1
      rw [level_retype]
      omega
    have down : Link K (type (retype (placed e (level e) 0) t (level e - 1))) i
        (cubeOf e (level e)) (type e) := by
      rwa [type_retype]
    rw [child_eq hlt hi down]
    simp [placed_placed, placed_cubeOf, Nat.sub_add_cancel h0]

/-! ## Ancestors -/

/-- The anchor without the digits finer than `level`. -/
def cutAt (e : K) (level : Nat) : K := mapCoords (fun _ c => Coord.clearBelow c (pos K level)) e

theorem cut_eq (hl : l ≤ depth K) (e : K) : cut e l = .ok (cutAt e l) := by
  rw [cut, Coord.finerPlace_eq depth_le hl, ok_bind, pure_eq_ok]
  rfl

@[simp] theorem type_cutAt (e : K) (l : Nat) : type (cutAt e l) = type e := by
  simp [cutAt]

@[simp] theorem level_cutAt (e : K) (l : Nat) : level (cutAt e l) = level e := by
  simp [cutAt]

@[simp] theorem coords_cutAt (e : K) (l : Nat) :
    coords (cutAt e l) = (coords e).map (Coord.clearBelow · (pos K l)) := by
  simp [cutAt, mapIdx_eq_map]

@[simp] theorem cutAt_retype (e : K) (t k l : Nat) :
    cutAt (retype e t k) l = retype (cutAt e l) t k :=
  LawfulKuhn.ext (by simp) (by simp) (by simp)

theorem cutAt_self (h : ∀ c ∈ coords e, Coord.Aligned c (pos K l)) : cutAt e l = e := by
  refine LawfulKuhn.ext ?_ (by simp) (by simp)
  rw [coords_cutAt, Coord.map_clearBelow_of_aligned h]

theorem cutAt_placed (hm : m < l) (hl : l ≤ depth K) (e : K) (cube : Nat) :
    cutAt (placed e l cube) m = cutAt e m := by
  refine LawfulKuhn.ext ?_ (by simp) (by simp)
  rw [coords_cutAt, coords_cutAt, coords_placed,
    Coord.map_clearBelow_stamp (pos_lt K l) (pos_lt_of_lt hm hl)]

theorem typeFrom_congr {a b : K} {target : Nat} (hl : l ≤ depth K)
    (same : ∀ m ≤ l, cubeOf a m = cubeOf b m) (t : Nat) :
    typeFrom a t target l = typeFrom b t target l := by
  induction l generalizing t with
  | zero => rfl
  | succ l ih =>
      have below := ih (by omega) fun m hm => same m (by omega)
      simp only [typeFrom, cubeId_eq (Nat.succ_pos l) hl, ok_bind, same (l + 1) le_rfl, below]

theorem ancestor_eq_climb {target : Nat} (he : Valid e) {k : Nat} (hk : level e = target + k) :
    ancestor e target = Element.climb parent k e := by
  induction k generalizing e with
  | zero =>
      obtain rfl : target = level e := hk.symm
      rw [ancestor, typeAt, require_of_true le_rfl, ok_bind, typeFrom_self, ok_bind,
        cut_eq he.1, ok_bind, cutAt_self he.aligned, retype_self]
      rfl
  | succ k ih =>
      have h0 : 0 < level e := by omega
      have hl := he.1
      obtain ⟨t, ht, i, hi, link⟩ := link_up (cubeOf e (level e)) (cubeOf_lt e _) (type e) he.2.1
      have up := parent_eq h0 hl link
      have rest := ih (valid_parent he h0 ht) (by rw [level_retype]; omega)
      rw [Element.climb, up, ok_bind, ← rest, ancestor, ancestor, typeAt, typeAt,
        require_of_true (by omega), require_of_true (by rw [level_retype]; omega), ok_bind, ok_bind,
        cut_eq (by omega), cut_eq (by omega), cutAt_retype, cutAt_placed (by omega) hl]
      have same : ∀ m ≤ target + k, cubeOf e m =
          cubeOf (retype (placed e (level e) 0) t (level e - 1)) m := by
        intro m hm
        rw [cubeOf_retype, cubeOf_placed_of_lt (by omega) hl]
      have types : typeFrom e (type e) target (level e) = typeFrom e t target (target + k) := by
        have last : level e = target + k + 1 := hk
        rw [last, typeFrom, if_neg (by omega), ← last, cubeId_eq h0 hl, ok_bind, link.2.1, ok_bind]
      rw [types, typeFrom_congr (by omega) same, level_retype, type_retype, hk]
      simp

end

/-! ## The forest -/

section

variable {K : Type} [Kuhn K] [DecidableEq K] [Element K] [KuhnElement K] {e : K}

theorem branching_eq : branching K = (shape K).numChildren :=
  congrArg Shape.numChildren (KuhnElement.shape_eq (K := K))

theorem finest_eq : finest K = depth K :=
  congrArg Shape.maxLevel (KuhnElement.shape_eq (K := K))

theorem finest_sub (K : Type) [Kuhn K] [DecidableEq K] [Element K] [KuhnElement K] (l : Nat) :
    Element.pos K l = pos K l :=
  congrArg (· - l) (finest_eq (K := K))

theorem isFamily_eq {first p : K} {rest siblings : List K}
    (hlen : (first :: rest).length = (shape K).numChildren) (h0 : 0 < level first)
    (up : Element.parent first = .ok p) (hs : children p = .ok siblings) :
    isFamily (first :: rest) = .ok (decide (first :: rest = siblings)) := by
  rw [KuhnElement.parent_eq] at up
  rw [children, KuhnElement.child_eq, KuhnElement.shape_eq] at hs
  rw [isFamily, if_neg (not_not.mpr hlen)]
  simp only [if_neg h0.ne', up, ok_bind, hs, pure_eq_ok]

variable [LawfulKuhn K]

instance : LawfulForest K where
  level_of_valid {e} he := by
    have valid := (KuhnElement.valid_iff e).mp he
    exact ⟨level e, finest_eq (K := K) ▸ valid.1, KuhnElement.level_eq e⟩
  bounds_of_child {e c l i} h hl := by
    rw [KuhnElement.child_eq] at h
    rw [KuhnElement.level_eq] at hl
    cases hl
    obtain ⟨hi, h⟩ := of_require_bind h
    rw [finest_eq, branching_eq]
    exact ⟨(of_require_bind h).1, hi⟩
  child_of_valid {e l i} he hl hlt hi := by
    rw [KuhnElement.level_eq] at hl
    cases hl
    rw [finest_eq] at hlt
    rw [branching_eq] at hi
    simp only [KuhnElement.child_eq, KuhnElement.parent_eq, KuhnElement.childId_eq,
      KuhnElement.valid_iff] at he ⊢
    exact exists_child he hlt hi
  parent_of_valid {e l} he hl := by
    rw [KuhnElement.level_eq] at hl
    have h0 : 0 < level e := Except.ok.inj hl ▸ Nat.succ_pos l
    rw [branching_eq]
    simp only [KuhnElement.child_eq, KuhnElement.parent_eq, KuhnElement.childId_eq,
      KuhnElement.valid_iff] at he ⊢
    obtain ⟨p, i, hi, laws⟩ := exists_parent he h0
    exact ⟨p, i, hi, laws⟩

instance : Anchored K where
  anchor := coords

instance : LawfulAnchored K where
  length_anchor e := (length_coords e).trans
    (congrArg Shape.dimension (KuhnElement.shape_eq (K := K)).symm)
  aligned_of_valid {e l} he hl := by
    rw [KuhnElement.level_eq] at hl
    cases hl
    rw [finest_sub]
    exact ((KuhnElement.valid_iff e).mp he).aligned
  anchor_child {e c l i} he hl hc := by
    rw [KuhnElement.level_eq] at hl
    cases hl
    rw [KuhnElement.child_eq] at hc
    obtain ⟨_, cube, _, t', _, _, rfl⟩ := exists_link_of_child ((KuhnElement.valid_iff e).mp he) hc
    refine ⟨cube, ?_⟩
    rw [finest_sub]
    exact (coords_retype _ _ _).trans (coords_placed e _ cube)

/-- A cut leaves the anchor of the ancestor. -/
theorem coords_cutAt_of_below {p : K} (hp : Element.Valid p) (h : Below p e) :
    coords (cutAt e (level p)) = coords p := by
  rw [coords_cutAt, ← finest_sub]
  exact h.cut_anchor hp (KuhnElement.level_eq p)

theorem descends_first (he : Valid e) {k : Nat} (hk : level e + k ≤ depth K) :
    Descends e k 0 (retype e (type e) (level e + k)) := by
  have valid : Element.Valid e := (KuhnElement.valid_iff e).mpr he
  induction k with
  | zero =>
      rw [Nat.add_zero, retype_self]
      exact .here
  | succ k ih =>
      have first := ih (by omega)
      have hd := (KuhnElement.valid_iff _).mp (first.valid valid)
      have hlt : level (retype e (type e) (level e + k)) < depth K := by
        rw [level_retype]
        omega
      have link : Link K (type (retype e (type e) (level e + k))) 0 0 (type e) := by
        rw [type_retype]
        exact link_first _ he.2.1
      refine .child first (branching_pos K) ?_
      rw [KuhnElement.child_eq, child_eq hlt (Nat.zero_lt_of_lt (Shape.numChildren_pos _)) link,
        placed_zero (hd.aligned_succ hlt)]
      simp [Nat.add_assoc]

theorem isFamily_decides {family : List K} (h : ∀ e ∈ family, Element.Valid e) :
    Decides (isFamily family) (∃ p, Element.Valid p ∧ children p = .ok family) := by
  by_cases hlen : family.length = (shape K).numChildren
  · cases family with
    | nil => exact absurd hlen (Nat.zero_lt_of_lt (Shape.numChildren_pos _)).ne
    | cons first rest =>
        have hf := h first List.mem_cons_self
        by_cases h0 : level first = 0
        · rw [isFamily, if_neg (not_not.mpr hlen)]
          simp only [if_pos h0, pure_eq_ok]
          exact decides_false (not_family_of_level_zero (h0 ▸ KuhnElement.level_eq first))
        · obtain ⟨l, hl⟩ := Nat.exists_eq_succ_of_ne_zero h0
          have level := KuhnElement.level_eq first
          rw [hl] at level
          obtain ⟨p, i, hi, up, _, hp, down⟩ := parent_of_valid hf level
          obtain ⟨lp, _, hlp⟩ := level_of_valid hp
          obtain ⟨siblings, hs⟩ := exists_children hp hlp (bounds_of_child down hlp).1
          rw [isFamily_eq hlen (Nat.pos_of_ne_zero h0) up hs]
          exact decides_of_ok.congr (family_iff_of_parent hp up hs).symm
  · unfold isFamily
    rw [if_pos hlen, pure_eq_ok]
    exact decides_false (not_family_of_length_ne (branching_eq (K := K) ▸ hlen))

instance : LawfulNavigation K where
  ancestor_of_valid {e l target} he hl ht := by
    rw [KuhnElement.level_eq] at hl
    cases hl
    rw [KuhnElement.ancestor_eq, KuhnElement.parent_eq]
    exact ancestor_eq_climb ((KuhnElement.valid_iff e).mp he) (by omega)
  firstDescendant_of_valid {e l target} he hl hle ht := by
    rw [KuhnElement.level_eq] at hl
    cases hl
    rw [finest_eq] at ht
    obtain ⟨k, rfl⟩ := Nat.exists_eq_add_of_le hle
    refine ⟨retype e (type e) (level e + k), ?_, ?_⟩
    · rw [KuhnElement.firstDescendant_eq, firstDescendant, require_of_true ⟨hle, ht⟩, ok_bind,
        pure_eq_ok]
    · rw [Nat.add_sub_cancel_left]
      exact descends_first ((KuhnElement.valid_iff e).mp he) ht
  isFamily_of_valid h := by
    rw [KuhnElement.isFamily_eq]
    exact isFamily_decides h

end

end MeshCurve.Kuhn
