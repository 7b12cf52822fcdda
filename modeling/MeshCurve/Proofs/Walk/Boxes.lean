import MeshCurve.Proofs.Cell.Line
import MeshCurve.Proofs.Cell.Quad
import MeshCurve.Proofs.Walk.Kin

/-!
# Walks over boxes

The last descendant of a box lies in its far corner.  An ancestor has the anchor of its
descendant without the finer digits, so that the nearest common ancestor is one.
-/

namespace MeshCurve

open Element

namespace Box

variable {B : Type} [Element B] [Box B]

/-- The cell of the level in the far corner of a box. -/
def farCell (e : B) (target : Nat) : B :=
  place (fun _ c => c + (2 ^ pos B (level e) - 2 ^ pos B target)) target e

/-- The cell of the level that a box starts in. -/
def cutAt (e : B) (target : Nat) : B :=
  place (fun _ c => Coord.clearBelow c (pos B target)) target e

end Box

open Box (farCell cutAt)

/-- What a shape of boxes has to prove about the calls that lead from one to others. -/
class BoxWalk (B : Type) [Element B] [Box B] : Prop extends LawfulBox B, BoxCurve B where
  far_of_lastDescendant {e d : B} {target : Nat} : Valid e → lastDescendant e target = .ok d →
    (Box.level e ≤ target ∧ target ≤ finest B) ∧ d = farCell e target
  nca_eq {a : B} : Valid a → ∀ b, nca a b = .ok (cutAt a (Coord.sharedLevel (finest B)
    (min (Box.level a) (Box.level b)) (anchor a) (anchor b)))
  child_of_childrenAtFace {e c : B} {f : Nat} {cs : List B} : childrenAtFace e f = .ok cs →
    c ∈ cs → ∃ i, child e i = .ok c
  lt_of_faceNeighbor {e n : B} {f d : Nat} : faceNeighbor e f = .ok (n, d) →
    f < (shape B).numFaces

namespace Box

export BoxWalk (far_of_lastDescendant nca_eq)

variable {B : Type} [Element B] [Box B]

/-! ## Last descendants -/

section

variable [LawfulBox B] {e : B} {k t : Nat}

@[simp] theorem anchor_farCell (e : B) (t : Nat) :
    anchor (farCell e t) = (anchor e).map (· + (2 ^ pos B (level e) - 2 ^ pos B t)) := by
  rw [farCell, anchor_place, mapIdx_eq_map]

@[simp] theorem level_farCell (e : B) (t : Nat) : level (farCell e t) = t := level_place _ _ e

theorem cell_farCell (hlt : t < finest B)
    (fine : ∀ c ∈ anchor (farCell e t), Coord.Aligned c (pos B (t + 1) + 1)) :
    cell (farCell e t) (branching B - 1) = farCell e (t + 1) := by
  refine LawfulBox.ext ?_ (by simp)
  rw [anchor_farCell, pos_eq_succ hlt] at fine
  rw [anchor_cell, anchor_farCell, anchor_farCell, level_farCell, pos_eq_succ hlt, branching_eq e,
    Coord.stamp_far (pos_lt B _) fine]

theorem descends_last (he : Valid e) (hk : level e + k ≤ finest B) :
    Descends e k (branching B ^ k - 1) (farCell e (level e + k)) := by
  induction k with
  | zero =>
      have self : farCell e (level e + 0) = e := LawfulBox.ext (by simp) (by simp)
      rw [self, pow_zero, Nat.sub_self]
      exact .here
  | succ k ih =>
      have last := ih (by omega)
      have hlt : level e + k < finest B := hk
      have fine := aligned_succ (last.valid he) (by rwa [level_farCell])
      rw [level_farCell] at fine
      have far := child_eq (e := farCell e (level e + k)) (by rwa [level_farCell])
        (Nat.sub_lt (branching_pos B) Nat.one_pos)
      rw [cell_farCell hlt fine] at far
      exact last.child_last far

end

/-! ## Ancestors -/

section

variable [LawfulBox B] {e p : B} {t : Nat}

@[simp] theorem anchor_cutAt (e : B) (t : Nat) :
    anchor (cutAt e t) = (anchor e).map (Coord.clearBelow · (pos B t)) := by
  rw [cutAt, anchor_place, mapIdx_eq_map]

@[simp] theorem level_cutAt (e : B) (t : Nat) : level (cutAt e t) = t := level_place _ _ e

theorem cutAt_cutAt {s : Nat} (ht : t ≤ s) (e : B) : cutAt (cutAt e s) t = cutAt e t := by
  refine LawfulBox.ext ?_ (by simp)
  rw [anchor_cutAt, anchor_cutAt, anchor_cutAt, List.map_map]
  exact List.map_congr_left fun c _ =>
    Coord.clearBelow_clearBelow (Nat.sub_le_sub_left ht (finest B)) c

theorem cutAt_of_below (hp : Valid p) (h : Below p e) : cutAt e (level p) = p := by
  refine LawfulBox.ext ?_ (level_cutAt e _)
  rw [anchor_cutAt]
  exact h.cut_anchor hp (LawfulBox.level_eq p)

theorem ancestor_cutAt [BoxCurve B] (he : Valid e) (ht : t ≤ level e) :
    ancestor e t = .ok (cutAt e t) ∧ Valid (cutAt e t) ∧ Below (cutAt e t) e := by
  obtain ⟨p, i, up, hp, levelP, hi⟩ := exists_ancestor_eq he (LawfulBox.level_eq e) ht
  have cut := cutAt_of_below hp ⟨_, i, hi⟩
  rw [level_eq_ok_iff.mp levelP] at cut
  rw [cut]
  exact ⟨up, hp, _, i, hi⟩

end

/-! ## Walks -/

variable [BoxWalk B] {a b c d e : B} {t : Nat}

theorem below_of_nca (ha : Valid a) (h : nca a b = .ok c) : Valid c ∧ Below c a := by
  cases (nca_eq ha b).symm.trans h
  refine (ancestor_cutAt ha ?_).2
  exact (Coord.le_foldl_min_iff.mp le_rfl).1.trans (Nat.min_le_left _ _)

/-- From the nearest common ancestor upwards the ancestors are those of either box. -/
theorem ancestor_nca (ha : Valid a) (h : nca a b = .ok c) (ht : t ≤ level c) :
    ancestor c t = .ok (cutAt a t) := by
  have valid := (below_of_nca ha h).1
  have up := (ancestor_cutAt valid ht).1
  cases (nca_eq ha b).symm.trans h
  rwa [cutAt_cutAt (by rwa [level_cutAt] at ht)] at up

theorem inRoot_of_successor (h : successor e t = .ok d) : InRoot d := by
  rw [successor_eq] at h
  obtain ⟨_, h⟩ := of_require_bind h
  obtain ⟨id, _, h⟩ := bind_eq_ok_iff.mp h
  by_cases bounds : t ≤ finest B ∧ id + 1 < branching B ^ t
  · exact inRoot_of_ofLinearId bounds.1 bounds.2 h
  · cases (ofLinearId_of_not (B := B) bounds).symm.trans h

instance : LawfulWalk B where
  level_of_parent {e p} _ h := by
    refine ⟨level e - 1, ?_⟩
    rw [level_eq_ok_iff, Nat.sub_add_cancel (pos_of_parent h)]
  le_of_ancestor _ hl h := by
    obtain rfl := level_eq_ok_iff.mp hl
    rw [ancestor_eq] at h
    exact (of_require_bind h).1
  bounds_of_firstDescendant _ hl h := by
    obtain rfl := level_eq_ok_iff.mp hl
    rw [firstDescendant_eq] at h
    exact (of_require_bind h).1
  descends_of_lastDescendant {e d l target} he hl h := by
    obtain rfl := level_eq_ok_iff.mp hl
    obtain ⟨⟨hle, ht⟩, rfl⟩ := far_of_lastDescendant he h
    obtain ⟨k, rfl⟩ := Nat.exists_eq_add_of_le hle
    rw [Nat.add_sub_cancel_left]
    exact ⟨hle, descends_last he ht⟩
  successor_of_valid _ h := .inr (inRoot_of_successor h)
  nca_of_valid := below_of_nca
  child_of_childrenAtFace _ h hc := BoxWalk.child_of_childrenAtFace h hc
  lt_of_faceNeighbor := BoxWalk.lt_of_faceNeighbor

end Box

end MeshCurve

/-! ## Lines -/

namespace MeshCurve.Line

open Element

instance : BoxWalk Line where
  far_of_lastDescendant {e d target} he h := by
    obtain ⟨⟨hle, ht⟩, h⟩ := of_require_bind h
    rw [edgeLen, Coord.cellLen_eq (by decide) he.1, ok_bind, Coord.cellLen_eq (by decide) ht,
      ok_bind] at h
    obtain ⟨stop, hs, h⟩ := bind_eq_ok_iff.mp h
    obtain ⟨x, hx, h⟩ := bind_eq_ok_iff.mp h
    obtain ⟨_, rfl⟩ := coordinate_eq_ok_iff.mp hs
    obtain ⟨_, rfl⟩ := coordinate_eq_ok_iff.mp hx
    rw [Int.add_sub_assoc] at h
    cases h
    exact ⟨⟨hle, ht⟩, rfl⟩
  nca_eq {a} ha b := by
    have fits : min (min a.level b.level) (Coord.commonLevel a.x b.x depth) ≤ depth :=
      (Nat.min_le_left _ _).trans ((Nat.min_le_left _ _).trans ha.1)
    exact bind_eq_ok_iff.mpr ⟨_, Coord.cutToLevel_eq (by decide) fits a.x, rfl⟩
  child_of_childrenAtFace {e c f cs} h hc := by
    obtain ⟨_, _, h⟩ := bind_eq_ok_iff.mp h
    obtain ⟨c', hc', h⟩ := bind_eq_ok_iff.mp h
    cases h
    rw [List.mem_singleton.mp hc]
    exact ⟨f, hc'⟩
  lt_of_faceNeighbor h := (of_require_bind h).1

end MeshCurve.Line

/-! ## Quads -/

namespace MeshCurve.Quad

open Element

instance : BoxWalk Quad where
  far_of_lastDescendant {e d target} he h := by
    obtain ⟨⟨hle, ht⟩, h⟩ := of_require_bind h
    rw [edgeLen, Coord.cellLen_eq (by decide) he.1, ok_bind, Coord.cellLen_eq (by decide) ht,
      ok_bind] at h
    obtain ⟨x, hx, h⟩ := bind_eq_ok_iff.mp h
    obtain ⟨y, hy, h⟩ := bind_eq_ok_iff.mp h
    obtain ⟨_, rfl⟩ := coordinate_eq_ok_iff.mp hx
    obtain ⟨_, rfl⟩ := coordinate_eq_ok_iff.mp hy
    cases h
    exact ⟨⟨hle, ht⟩, rfl⟩
  nca_eq {a} ha b := by
    have fits : min (min (min a.level b.level) (Coord.commonLevel a.x b.x depth))
        (Coord.commonLevel a.y b.y depth) ≤ depth :=
      (Nat.min_le_left _ _).trans ((Nat.min_le_left _ _).trans ((Nat.min_le_left _ _).trans ha.1))
    exact bind_eq_ok_iff.mpr ⟨_, Coord.cutToLevel_eq (by decide) fits a.x,
      bind_eq_ok_iff.mpr ⟨_, Coord.cutToLevel_eq (by decide) fits a.y, rfl⟩⟩
  child_of_childrenAtFace h hc := by
    obtain ⟨_, _, h⟩ := bind_eq_ok_iff.mp h
    obtain ⟨i, _, hi⟩ := exists_of_mem_of_mapM_eq_ok h hc
    exact ⟨i, hi⟩
  lt_of_faceNeighbor h := (of_require_bind h).1

end MeshCurve.Quad
