import MeshCurve.Proofs.Digit.Cube
import MeshCurve.Proofs.Forest

/-!
# Anchors

All elements but prisms are written down by an anchor, with a coordinate for each axis and a
digit of it for each level.  A child has the digits of its parent and one more on every axis.
So the anchor of an ancestor is what is left when the finer digits are cut off, and as long as
no digit above the first level is touched, an anchor stays in its cube.
-/

namespace MeshCurve

theorem Shape.dimension_pos (s : Shape) : 0 < s.dimension := by
  cases s <;> decide

theorem Shape.maxLevel_le (s : Shape) : s.maxLevel ≤ 30 := by
  cases s <;> decide

namespace Element

variable {E : Type} [Element E] {a c d e p : E} {i k l m : Nat}

/-! ## Positions -/

/-- Where the digits of a level stand in the coordinates. -/
abbrev pos (E : Type) [Element E] (l : Nat) : Nat := finest E - l

theorem finest_le (E : Type) [Element E] : finest E ≤ 30 := (shape E).maxLevel_le

theorem pos_lt (E : Type) [Element E] (l : Nat) : pos E l < 31 :=
  Nat.lt_succ_of_le ((Nat.sub_le _ l).trans (finest_le E))

theorem pos_eq_succ (h : l < finest E) : pos E l = pos E (l + 1) + 1 := by
  unfold pos
  omega

theorem pos_lt_of_lt (hm : m < l) (hl : l ≤ finest E) : pos E l < pos E m := by
  unfold pos
  omega

/-! ## Anchors of elements -/

class Anchored (E : Type) where
  /-- the coordinates, axis by axis -/
  anchor : E → List Int

export Anchored (anchor)

/-- What a shape has to prove about its anchors. -/
class LawfulAnchored (E : Type) [Element E] [Anchored E] : Prop extends LawfulForest E where
  length_anchor (e : E) : (anchor e).length = (shape E).dimension
  aligned_of_valid {e : E} {l : Nat} : Valid e → level e = .ok l →
    ∀ c ∈ anchor e, Coord.Aligned c (pos E l)
  anchor_child {e c : E} {l i : Nat} : Valid e → level e = .ok l → child e i = .ok c →
    ∃ cube, anchor c = Coord.stamp cube (pos E (l + 1)) (anchor e)

export LawfulAnchored (length_anchor aligned_of_valid anchor_child)

variable [Anchored E] [LawfulAnchored E]

theorem within_child_iff (he : Valid e) (hc : child e i = .ok c) :
    (∀ x ∈ anchor c, 0 ≤ x ∧ x < 2 ^ finest E) ↔ ∀ x ∈ anchor e, 0 ≤ x ∧ x < 2 ^ finest E := by
  obtain ⟨l, _, hl⟩ := level_of_valid he
  obtain ⟨hlt, _⟩ := bounds_of_child hc hl
  obtain ⟨cube, written⟩ := anchor_child he hl hc
  rw [written]
  exact Coord.forall_mem_stamp_iff fun x b hb =>
    Coord.setBit_within_iff (Nat.sub_lt (Nat.zero_lt_of_lt hlt) (Nat.succ_pos l))
      ((finest_le E).trans (by decide)) hb

theorem Descends.cut_anchor (h : Descends a k i d) (ha : Valid a) (hl : Element.level a = .ok l) :
    (anchor d).map (Coord.clearBelow · (pos E l)) = anchor a := by
  induction h with
  | here => exact Coord.map_clearBelow_of_aligned (aligned_of_valid ha hl)
  | @child d c k i j h _ hc ih =>
      obtain ⟨hlt, _⟩ := bounds_of_child hc (h.level hl)
      obtain ⟨cube, written⟩ := anchor_child (h.valid ha) (h.level hl) hc
      have finer : pos E (l + k + 1) < pos E l := pos_lt_of_lt (by omega) hlt
      rw [written, Coord.map_clearBelow_stamp (pos_lt E _) finer, ih]

theorem Below.cut_anchor (h : Below p d) (hp : Valid p) (hl : Element.level p = .ok l) :
    (anchor d).map (Coord.clearBelow · (pos E l)) = anchor p := by
  obtain ⟨_, _, h⟩ := h
  exact h.cut_anchor hp hl

end Element

end MeshCurve
