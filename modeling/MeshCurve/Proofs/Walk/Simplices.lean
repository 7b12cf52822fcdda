import MeshCurve.Proofs.Cell.Tet
import MeshCurve.Proofs.Cell.Triangle
import MeshCurve.Proofs.Walk.Kin

/-!
# Walks over Kuhn simplices

The last child of a simplex lies in the far cube and has the type of its parent, which is
why the last descendant is a shift along the diagonal.  The next simplex of a level is
found from the digits of the anchor alone, so that it has an ancestor in common with the
simplex it follows, inside the root and outside of it.
-/

namespace MeshCurve.Kuhn

open Element

section

variable {K : Type} [Kuhn K] [LawfulKuhn K] {e : K} {l : Nat}

/-- The corner that the cell of `target` has in the far corner of `e`. -/
def farCorner (e : K) (target : Nat) : K :=
  mapCoords (fun _ c => c + (2 ^ pos K (level e) - 2 ^ pos K target)) e

@[simp] theorem coords_farCorner (e : K) (target : Nat) : coords (farCorner e target) =
    (coords e).map (· + (2 ^ pos K (level e) - 2 ^ pos K target)) := by
  simp [farCorner, mapIdx_eq_map]

@[simp] theorem type_farCorner (e : K) (target : Nat) : type (farCorner e target) = type e := by
  simp [farCorner]

@[simp] theorem level_farCorner (e : K) (target : Nat) : level (farCorner e target) = level e := by
  simp [farCorner]

theorem farCorner_self (e : K) : farCorner e (level e) = e :=
  LawfulKuhn.ext (by simp) (by simp) (by simp)

theorem placed_farCorner (hl : l < depth K)
    (fine : ∀ c ∈ coords (farCorner e l), Coord.Aligned c (pos K (l + 1) + 1)) :
    placed (farCorner e l) (l + 1) ((shape K).numChildren - 1) = farCorner e (l + 1) := by
  refine LawfulKuhn.ext ?_ (by simp) (by simp)
  rw [coords_farCorner, pos_eq_succ hl] at fine
  rw [coords_placed, coords_farCorner, coords_farCorner, pos_eq_succ hl, numChildren_eq e,
    Coord.stamp_far (pos_lt K _) fine]

end

theorem require_of_ancestor {K : Type} [Kuhn K] {e a : K} {target : Nat}
    (h : ancestor e target = .ok a) : target ≤ level e := by
  obtain ⟨_, h, _⟩ := bind_eq_ok_iff.mp h
  exact (of_require_bind h).1

theorem pos_of_parent {K : Type} [Kuhn K] {e p : K} (h : parent e = .ok p) : 0 < level e :=
  (of_require_bind h).1

section

variable {K : Type} [Kuhn K] [DecidableEq K] [Element K]

/-- What a dimension has to prove about its last children and its faces. -/
class KuhnWalk (K : Type) [Kuhn K] [DecidableEq K] [Element K] : Prop where
  link_last : ∀ t < (shape K).numTypes,
    Link K t ((shape K).numChildren - 1) ((shape K).numChildren - 1) t
  lastDescendant_eq : (Element.lastDescendant : K → _) = lastDescendant
  nca_eq : (Element.nca : K → _) = nca
  child_of_childrenAtFace {e c : K} {f : Nat} {cs : List K} :
    Element.childrenAtFace e f = .ok cs → c ∈ cs → ∃ i, child e i = .ok c
  lt_of_faceNeighbor {e n : K} {f d : Nat} :
    Element.faceNeighbor e f = .ok (n, d) → f < (shape K).numFaces

variable [KuhnElement K] {a b c d e s : K} {k l m t target : Nat}

theorem exists_level_of_pos (h : 0 < level e) : ∃ l, Element.level e = .ok (l + 1) := by
  refine ⟨level e - 1, ?_⟩
  rw [KuhnElement.level_eq, Nat.sub_add_cancel h]

variable [LawfulKuhn K]

/-! ## Last descendants -/

theorem descends_last [KuhnWalk K] (he : Valid e) (hk : level e + k ≤ depth K) :
    Descends e k (branching K ^ k - 1)
      (retype (farCorner e (level e + k)) (type e) (level e + k)) := by
  induction k with
  | zero =>
      rw [Nat.add_zero, farCorner_self, retype_self, pow_zero, Nat.sub_self]
      exact .here
  | succ k ih =>
      have last := ih (by omega)
      have valid := (KuhnElement.valid_iff _).mp (last.valid ((KuhnElement.valid_iff e).mpr he))
      have hlt : level (retype (farCorner e (level e + k)) (type e) (level e + k)) < depth K := by
        rw [level_retype]
        omega
      have fine := valid.aligned_succ hlt
      rw [level_retype, coords_retype] at fine
      have link : Link K (type (retype (farCorner e (level e + k)) (type e) (level e + k)))
          ((shape K).numChildren - 1) ((shape K).numChildren - 1) (type e) := by
        rw [type_retype]
        exact KuhnWalk.link_last _ he.2.1
      have far : (shape K).numChildren - 1 < (shape K).numChildren :=
        Nat.sub_lt (Nat.zero_lt_of_lt (Shape.numChildren_pos _)) Nat.one_pos
      refine last.child_last ?_
      rw [KuhnElement.child_eq, branching_eq, child_eq hlt far link, level_retype, placed_retype,
        placed_farCorner (by omega) fine, retype_retype]
      rfl

theorem descends_of_lastDescendant [KuhnWalk K] (he : Valid e)
    (h : lastDescendant e target = .ok d) : level e ≤ target ∧
      Descends e (target - level e) (branching K ^ (target - level e) - 1) d := by
  obtain ⟨⟨hle, ht⟩, h⟩ := of_require_bind h
  rw [Coord.cellLen_eq depth_le he.1, ok_bind, Coord.cellLen_eq depth_le ht, ok_bind] at h
  obtain ⟨_, _, h⟩ := bind_eq_ok_iff.mp h
  cases h
  obtain ⟨k, rfl⟩ := Nat.exists_eq_add_of_le hle
  rw [Nat.add_sub_cancel_left]
  exact ⟨hle, descends_last he ht⟩

/-! ## Nearest common ancestors -/

/-- Climbing from `a` leads to ancestors of `a`. -/
theorem below_of_meet (ha : Element.Valid a) (h : meet l a b = .ok c) :
    Element.Valid c ∧ Below c a := by
  induction l generalizing a b with
  | zero =>
      rw [meet] at h
      split at h
      · cases h
        exact ⟨ha, .refl c⟩
      · cases h
  | succ l ih =>
      rw [meet] at h
      split at h
      · cases h
        exact ⟨ha, .refl c⟩
      · obtain ⟨p, hp, h⟩ := bind_eq_ok_iff.mp h
        obtain ⟨q, _, h⟩ := bind_eq_ok_iff.mp h
        obtain ⟨m, hm⟩ := exists_level_of_pos (pos_of_parent hp)
        rw [← KuhnElement.parent_eq] at hp
        obtain ⟨validP, above⟩ := below_of_parent ha hm hp
        obtain ⟨validC, below⟩ := ih validP h
        exact ⟨validC, below.trans above⟩

theorem below_of_nca (ha : Element.Valid a) (h : nca a b = .ok c) :
    Element.Valid c ∧ Below c a := by
  obtain ⟨s, hs, h⟩ := bind_eq_ok_iff.mp h
  obtain ⟨_, _, h⟩ := bind_eq_ok_iff.mp h
  have coarse := require_of_ancestor hs
  rw [← KuhnElement.ancestor_eq] at hs
  obtain ⟨validS, above⟩ := below_of_ancestor ha (KuhnElement.level_eq a) coarse hs
  obtain ⟨validC, below⟩ := below_of_meet validS h
  exact ⟨validC, below.trans above⟩

/-! ## Successors -/

/-- Where the carry stops, an ancestor has a child after the one that is left. -/
theorem exists_turn_of_carry {i : Nat} (hs : Valid s) (hl : level s = l)
    (same : ∀ n ≤ l, cubeOf e n = cubeOf s n) (h : carry e l (type s) = .ok (m, t, i)) :
    ∃ p, Element.Valid p ∧ Below p s ∧ m = level p + 1 ∧ t = type p ∧ m ≤ l ∧
      i + 1 < (shape K).numChildren := by
  -- On the level the carry has climbed to: `s` is the ancestor there, `e` only lends its digits.
  induction l generalizing s with
  | zero => cases h
  | succ l ih =>
      obtain ⟨_, above⟩ := exists_level_of_pos (Nat.lt_of_lt_of_eq (Nat.succ_pos l) hl.symm)
      obtain ⟨p, j, hj, _, _, hp, down⟩ := parent_of_valid ((KuhnElement.valid_iff s).mpr hs) above
      have below : Below p s := ⟨1, j, .single hj down⟩
      have validP := (KuhnElement.valid_iff p).mp hp
      rw [KuhnElement.child_eq] at down
      rw [branching_eq] at hj
      obtain ⟨_, levelS, _, coarser⟩ := link_of_child validP down
      have levelP : level p = l := by omega
      have step := carry_step (e := e) validP down
      rw [levelP] at step coarser
      rw [step same] at h
      split at h
      · cases h
        exact ⟨p, hp, below, by rw [levelP], rfl, le_rfl, by omega⟩
      · have coarse : ∀ n ≤ l, cubeOf e n = cubeOf p n := fun n hn =>
          (same n (by omega)).trans (coarser n hn).symm
        obtain ⟨q, hq, above, hm, ht, hle, hi⟩ := ih validP levelP coarse h
        exact ⟨q, hq, above.trans below, hm, ht, by omega, hi⟩

theorem kin_of_successor (he : Element.Valid e) (h : successor e target = .ok d) : Kin e d := by
  obtain ⟨⟨h1, ht⟩, _⟩ := of_require_bind h
  obtain ⟨s, kin, level, up, down⟩ :=
    exists_kin_on_level he (KuhnElement.level_eq e) (finest_eq (K := K) ▸ ht)
  have start := start_of_level ht up down
  have validS := (KuhnElement.valid_iff s).mp kin.valid
  rw [KuhnElement.level_eq] at level
  cases stop : carry s target (type s) with
  | error fault => cases h.symm.trans (successor_of_stuck h1 ht start stop)
  | ok turn =>
      obtain ⟨m, t, j⟩ := turn
      obtain ⟨p, hp, below, rfl, rfl, hle, hj⟩ :=
        exists_turn_of_carry validS (Except.ok.inj level) (fun _ _ => rfl) stop
      obtain ⟨c, hc, validC, _⟩ := exists_child ((KuhnElement.valid_iff p).mp hp) (by omega) hj
      cases h.symm.trans (successor_of_turn h1 ht start hp below stop hc)
      have levelC := (link_of_child ((KuhnElement.valid_iff p).mp hp) hc).2.1
      have first := descends_first validC (k := target - Kuhn.level c) (by omega)
      rw [Nat.add_sub_cancel' (by omega)] at first
      rw [← KuhnElement.child_eq] at hc
      have next : Kin p c := kin_of_child hp hc
      exact (kin.trans (.of_above ⟨hp, below⟩)).trans
        (next.trans (.of_below next.valid ⟨_, _, first⟩))

instance [Rooted K] [KuhnRoot K] [KuhnWalk K] : LawfulWalk K where
  level_of_parent _ h := by
    rw [KuhnElement.parent_eq] at h
    exact exists_level_of_pos (pos_of_parent h)
  le_of_ancestor _ hl h := by
    rw [KuhnElement.level_eq] at hl
    cases hl
    rw [KuhnElement.ancestor_eq] at h
    exact require_of_ancestor h
  bounds_of_firstDescendant _ hl h := by
    rw [KuhnElement.level_eq] at hl
    cases hl
    rw [KuhnElement.firstDescendant_eq] at h
    rw [finest_eq]
    exact (of_require_bind h).1
  descends_of_lastDescendant {e d l target} he hl h := by
    rw [KuhnElement.level_eq] at hl
    cases hl
    rw [KuhnWalk.lastDescendant_eq] at h
    exact descends_of_lastDescendant ((KuhnElement.valid_iff e).mp he) h
  successor_of_valid he h := by
    rw [KuhnElement.successor_eq] at h
    exact .inl (kin_of_successor he h)
  nca_of_valid ha h := by
    rw [KuhnWalk.nca_eq] at h
    exact below_of_nca ha h
  child_of_childrenAtFace _ h hc := by
    rw [KuhnElement.child_eq]
    exact KuhnWalk.child_of_childrenAtFace h hc
  lt_of_faceNeighbor h := by
    rw [KuhnElement.shape_eq]
    exact KuhnWalk.lt_of_faceNeighbor h

end

end MeshCurve.Kuhn

namespace MeshCurve

instance : Kuhn.KuhnWalk Triangle where
  link_last := by decide +kernel
  lastDescendant_eq := rfl
  nca_eq := rfl
  child_of_childrenAtFace h hc := by
    obtain ⟨_, _, h⟩ := bind_eq_ok_iff.mp h
    obtain ⟨i, _, hi⟩ := exists_of_mem_of_mapM_eq_ok h hc
    exact ⟨i, hi⟩
  lt_of_faceNeighbor h := (of_require_bind h).1

instance : Kuhn.KuhnWalk Tet where
  link_last := by decide +kernel
  lastDescendant_eq := rfl
  nca_eq := rfl
  child_of_childrenAtFace {e c f cs} h hc := by
    change e.childrenAtFace f = .ok cs at h
    unfold Tet.childrenAtFace at h
    split at h
    · cases h
    · split at h
      · cases h
      · obtain ⟨i, _, hi⟩ := exists_of_mem_of_mapM_eq_ok h hc
        exact ⟨i, hi⟩
  lt_of_faceNeighbor h := (of_require_bind h).1

end MeshCurve
