import MeshCurve.Cell.Quad
import MeshCurve.Proofs.Cell.Box
import Mathlib.Data.List.Basic

/-!
# The curve of quads

The digit of a level is the pair of the digits of both axes, and the id of a quad is the Morton
id of its anchor.
-/

namespace MeshCurve.Quad

open Element

variable {e : Quad} {l i target : Nat}

/-! ## Tree -/

instance : Box Quad where
  anchor e := [e.x, e.y]
  level := level
  place f l e := ⟨f 0 e.x, f 1 e.y, l⟩

theorem Valid.aligned (h : e.Valid) :
    Coord.Aligned e.x (depth - e.level) ∧ Coord.Aligned e.y (depth - e.level) := h.2

/-- Quadrant `i` of a quad. -/
def quadrant (e : Quad) (i : Nat) : Quad :=
  ⟨Coord.setBit e.x (depth - (e.level + 1)) (i % 2),
    Coord.setBit e.y (depth - (e.level + 1)) (i / 2 % 2), e.level + 1⟩

theorem child_eq (hl : e.level < depth) (hi : i < 4) : e.child i = .ok (e.quadrant i) := by
  simp only [child, require_of_true hi, require_of_true hl, ok_bind, pure_eq_ok,
    Coord.withDigit_eq (by decide : depth ≤ 30) (Nat.succ_le_of_lt hl) _ (Nat.mod_lt _ Nat.two_pos),
    quadrant]

theorem parent_eq (h0 : 0 < e.level) (hl : e.level ≤ depth) :
    e.parent = .ok ⟨Coord.setBit e.x (depth - e.level) 0, Coord.setBit e.y (depth - e.level) 0,
      e.level - 1⟩ := by
  simp only [parent, require_of_true h0, ok_bind, pure_eq_ok,
    Coord.withDigit_eq (by decide : depth ≤ 30) hl _ Nat.two_pos]

instance : LawfulBox Quad where
  ext {a b} anchors levels := by
    cases a
    cases b
    cases anchors
    cases levels
    rfl
  dimension_eq _ := rfl
  anchor_place _ _ _ := rfl
  level_place _ _ _ := rfl
  level_eq _ := rfl
  valid_iff {e} := by
    change e.Valid ↔ _ ∧ ∀ c ∈ [e.x, e.y], _
    rw [forall_mem_pair]
    rfl
  bounds_of_child h := by
    obtain ⟨hi, h⟩ := of_require_bind h
    exact ⟨(of_require_bind h).1, hi⟩
  child_eq hl hi := child_eq hl hi
  pos_of_parent h := (of_require_bind h).1
  parent_eq h0 hl := parent_eq h0 hl
  childId_eq h0 hl := Coord.cubeId_eq (by decide) h0 hl (by simp)
  ancestor_eq _ _ := rfl
  firstDescendant_eq _ _ := rfl

/-! ## Families -/

theorem isFamily_of_length_ne {family : List Quad} (h : family.length ≠ 4) :
    isFamily family = .ok false := by
  match family with
  | [] | [_] | [_, _] | [_, _, _] | _ :: _ :: _ :: _ :: _ :: _ => rfl
  | [_, _, _, _] => exact absurd rfl h

theorem isFamily_eq {a b c d p : Quad} {siblings : List Quad} (h0 : 0 < a.level)
    (first : a.childId = .ok 0) (up : a.parent = .ok p)
    (hs : Element.children p = .ok siblings) :
    isFamily [a, b, c, d] = .ok (decide ([a, b, c, d] = siblings)) := by
  have hs : (List.range 4).mapM p.child = .ok siblings := hs
  simp only [isFamily, if_neg h0.ne', first, up, hs, ok_bind, pure_eq_ok, ne_eq,
    not_true_eq_false, if_false]

theorem isFamily_decides {family : List Quad} (h : ∀ e ∈ family, e.Valid) :
    Decides (isFamily family) (∃ p, Element.Valid p ∧ Element.children p = .ok family) := by
  by_cases four : family.length = 4
  · obtain ⟨a, b, c, d, rfl⟩ : ∃ a b c d, family = [a, b, c, d] := by
      match family with
      | [a, b, c, d] => exact ⟨a, b, c, d, rfl⟩
    have ha := h a List.mem_cons_self
    by_cases h0 : a.level = 0
    · simp only [isFamily, if_pos h0, pure_eq_ok]
      exact decides_false (not_family_of_level_zero (congrArg Except.ok h0))
    · have positive : 0 < a.level := Nat.pos_of_ne_zero h0
      have level : Element.level a = .ok (a.level - 1 + 1) :=
        congrArg Except.ok (Nat.sub_add_cancel positive).symm
      obtain ⟨p, i, _, up, digit, hp, down⟩ := parent_of_valid ha level
      by_cases hi : i = 0
      · subst hi
        obtain ⟨siblings, hs⟩ := exists_children hp rfl (bounds_of_child down rfl).1
        rw [isFamily_eq positive digit up hs]
        exact decides_of_ok.congr (family_iff_of_parent hp up hs).symm
      · have digit : a.childId = .ok i := digit
        simp only [isFamily, if_neg h0, digit, ok_bind, if_pos hi, ne_eq, pure_eq_ok]
        apply decides_false
        rintro ⟨q, hq, hf⟩
        obtain ⟨c, hc, down⟩ := getElem?_children hf (branching_pos Quad)
        cases hc
        cases digit.symm.trans (of_child hq down).2.2
        exact hi rfl
  · rw [isFamily_of_length_ne four]
    exact decides_false (not_family_of_length_ne four)

/-! ## Ids -/

theorem linearId_eq (he : e.Valid) (ht : target ≤ depth) :
    e.linearId target = .ok (Morton.number [e.x, e.y] depth target) := by
  have encoded {l : Nat} (hl : l ≤ depth) :
      Morton.encode [e.x, e.y] l depth = .ok (Morton.number [e.x, e.y] depth l) := by
    have fits : 2 * l ≤ 2 * 30 := Nat.mul_le_mul_left 2 hl
    exact Morton.encode_eq (by decide) hl (by simp) (fits.trans (by decide))
  rw [linearId, require_of_true ht, ok_bind]
  split
  · exact encoded ht
  · next hlt =>
      obtain ⟨k, rfl⟩ := Nat.exists_eq_add_of_le (Nat.le_of_not_le hlt)
      have zeros : Morton.number [e.x, e.y] depth e.level <<< (2 * k) =
          Morton.number [e.x, e.y] depth (e.level + k) := by
        rw [Morton.number_mul ht (by simpa using he.aligned)]
        exact Shape.shiftLeft_eq_mul .quad _ k
      have small : Morton.number [e.x, e.y] depth (e.level + k) < wordBound :=
        calc Morton.number [e.x, e.y] depth (e.level + k) < 2 ^ (2 * (e.level + k)) :=
              Morton.number_lt _ _ _
          _ ≤ 2 ^ (2 * depth) := Nat.pow_le_pow_right Nat.two_pos (Nat.mul_le_mul_left 2 ht)
          _ < wordBound := by decide
      rw [encoded he.1, ok_bind, Nat.add_sub_cancel_left, zeros, wrapWord_of_lt small, pure_eq_ok]

theorem ofLinearId_eq (hl : l ≤ depth) (hi : i < 4 ^ l) :
    ∃ x y, ofLinearId l i = .ok ⟨x, y, l⟩ ∧ Morton.anchorOf 2 depth l i = [x, y] := by
  have inside : i < Nat.pow 4 l := hi
  have room : 2 * l ≤ 2 * 30 := Nat.mul_le_mul_left 2 hl
  have decoded : Morton.decode i 2 l depth = .ok (Morton.anchorOf 2 depth l i) :=
    Morton.overwrite_eq (by decide) hl (by decide) (by decide) (room.trans (by decide))
  obtain ⟨x, y, anchor⟩ := List.length_eq_two.mp (Morton.length_anchorOf 2 depth l i)
  refine ⟨x, y, ?_, anchor⟩
  rw [ofLinearId, require_of_true hl, ok_bind, require_of_true inside, ok_bind, decoded, anchor]
  rfl

instance : BoxCurve Quad where
  isFamily_decides := isFamily_decides
  anchor_root := rfl
  level_root := rfl
  isInsideRoot_decides e := by
    change Decides (.ok (decide e.IsInsideRoot)) (∀ c ∈ [e.x, e.y], _)
    rw [forall_mem_pair]
    exact decides_of_ok
  linearId_eq he _ ht := linearId_eq he ht
  ofLinearId_eq hl hi := by
    obtain ⟨x, y, made, anchor⟩ := ofLinearId_eq hl hi
    exact ⟨_, made, rfl, anchor.symm⟩
  ofLinearId_of_not {l i} outside := by
    change ofLinearId l i = _
    rw [ofLinearId]
    by_cases hl : l ≤ depth
    · have beyond : ¬ i < Nat.pow 4 l := fun hi => outside ⟨hl, hi⟩
      rw [require_of_true hl, ok_bind, require_of_false beyond, error_bind]
    · rw [require_of_false hl, error_bind]
  successor_eq _ _ := rfl

end MeshCurve.Quad
