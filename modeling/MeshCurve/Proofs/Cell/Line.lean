import MeshCurve.Cell.Line
import MeshCurve.Proofs.Cell.Box
import Mathlib.Data.List.Basic

/-!
# The curve of lines

Number `i` of level `l` starts at `i` cell lengths from the anchor of the root, so
that the id is the anchor without the digits finer than the level.
-/

namespace MeshCurve.Line

open Element

variable {e : Line} {l i target : Nat}

/-! ## Tree -/

instance : Box Line where
  anchor e := [e.x]
  level := level
  place f l e := ⟨f 0 e.x, l⟩

theorem Valid.aligned (h : e.Valid) : Coord.Aligned e.x (depth - e.level) := h.2

theorem Valid.aligned_succ (h : e.Valid) (hl : e.level < depth) :
    Coord.Aligned e.x (depth - (e.level + 1) + 1) := pos_eq_succ (E := Line) hl ▸ h.aligned

theorem child_eq (hl : e.level < depth) (hi : i < 2) :
    e.child i = .ok ⟨Coord.setBit e.x (depth - (e.level + 1)) i, e.level + 1⟩ := by
  simp only [child, require_of_true hi, require_of_true hl, ok_bind,
    Coord.withDigit_eq (by decide) (Nat.succ_le_of_lt hl) e.x hi, pure_eq_ok]

theorem parent_eq (h0 : 0 < e.level) (hl : e.level ≤ depth) :
    e.parent = .ok ⟨Coord.setBit e.x (depth - e.level) 0, e.level - 1⟩ := by
  simp only [parent, require_of_true h0, ok_bind,
    Coord.withDigit_eq (by decide) hl e.x Nat.two_pos, pure_eq_ok]

theorem childId_eq (h0 : 0 < e.level) (hl : e.level ≤ depth) :
    e.childId = .ok (Coord.bit e.x (depth - e.level)) :=
  Coord.digit_eq (by decide) h0 hl e.x

instance : LawfulBox Line where
  ext {a b} anchors levels := by
    cases a
    cases b
    cases anchors
    cases levels
    rfl
  dimension_eq _ := rfl
  anchor_place _ _ _ := rfl
  level_place _ _ _ := rfl
  level_eq _ := rfl
  valid_iff {e} := by
    change e.Valid ↔ _ ∧ ∀ c ∈ [e.x], _
    rw [List.forall_mem_singleton]
    rfl
  bounds_of_child h := by
    obtain ⟨hi, h⟩ := of_require_bind h
    exact ⟨(of_require_bind h).1, hi⟩
  child_eq {e i} hl hi := by
    have digit : i >>> 0 % 2 = i := Nat.mod_eq_of_lt hi
    refine (child_eq hl hi).trans ?_
    simp only [Box.cell, Box.place, digit]
    rfl
  pos_of_parent h := (of_require_bind h).1
  parent_eq h0 hl := parent_eq h0 hl
  childId_eq h0 hl := childId_eq h0 hl
  ancestor_eq _ _ := rfl
  firstDescendant_eq _ _ := rfl

/-! ## Families -/

theorem children_eq (he : e.Valid) (hl : e.level < depth) :
    Element.children e =
      .ok [⟨e.x, e.level + 1⟩, ⟨e.x + 2 ^ (depth - (e.level + 1)), e.level + 1⟩] := by
  have small : depth - (e.level + 1) < 31 := pos_lt Line _
  have fine := he.aligned_succ hl
  have first := child_eq hl Nat.two_pos
  have second := child_eq hl Nat.one_lt_two
  rw [fine.setBit_zero_eq] at first
  rw [Coord.setBit_eq small, fine.bit_eq_zero] at second
  have double : Element.children e = (do
      let a ← e.child 0
      let b ← e.child 1
      pure [a, b]) := rfl
  simp only [double, first, second, ok_bind, pure_eq_ok, Nat.cast_one, Nat.cast_zero, sub_zero,
    one_mul]

theorem isFamily_of_length_ne {family : List Line} (h : family.length ≠ 2) :
    isFamily family = .ok false := by
  match family with
  | [] | [_] | _ :: _ :: _ :: _ => rfl
  | [_, _] => exact absurd rfl h

def Halves (a b : Line) : Prop :=
  (0 < a.level ∧ a.level = b.level) ∧ Coord.bit a.x (depth - a.level) = 0 ∧
    b.x = a.x + 2 ^ (depth - a.level)

instance (a b : Line) : Decidable (Halves a b) := inferInstanceAs (Decidable (_ ∧ _))

theorem isFamily_pair {a b : Line} (ha : a.Valid) :
    isFamily [a, b] = .ok (decide (Halves a b)) := by
  rw [isFamily]
  by_cases levels : 0 < a.level ∧ a.level = b.level
  · rw [if_pos levels, childId_eq levels.1 ha.1, ok_bind]
    by_cases even : Coord.bit a.x (depth - a.level) = 0
    · have room : IsCoordinate (a.x + 2 ^ (depth - a.level)) := by
        have small : depth - a.level < 31 := pos_lt Line _
        have fine := ha.aligned.setBit_zero small
        rw [← even, Coord.setBit_bit] at fine
        obtain ⟨lower, upper⟩ := fine.bounds small
        have edge := Coord.two_pow_pos (depth - a.level)
        rw [pow_succ] at upper
        exact ⟨by omega, by omega⟩
      rw [if_pos even, edgeLen, Coord.cellLen_eq (by decide) ha.1, ok_bind,
        coordinate_of_isCoordinate room, ok_bind, pure_eq_ok]
      exact congrArg _ (decide_eq_decide.mpr
        ⟨fun second => ⟨levels, even, second⟩, fun halves => halves.2.2⟩)
    · rw [if_neg even, pure_eq_ok, decide_eq_false fun halves => even halves.2.1]
  · rw [if_neg levels, pure_eq_ok, decide_eq_false fun halves => levels halves.1]

theorem halves_iff {a b : Line} (ha : a.Valid) :
    Halves a b ↔ ∃ p : Line, p.Valid ∧ Element.children p = .ok [a, b] := by
  constructor
  · rintro ⟨⟨h0, levels⟩, even, second⟩
    have level : Element.level a = .ok (a.level - 1 + 1) :=
      congrArg Except.ok (Nat.sub_add_cancel h0).symm
    obtain ⟨p, _, _, up, _, hp, _⟩ := parent_of_valid ha level
    have upEq := parent_eq h0 ha.1
    rw [← even, Coord.setBit_bit] at upEq
    cases up.symm.trans upEq
    refine ⟨_, hp, (children_eq hp (by have := ha.1; simp only; omega)).trans ?_⟩
    obtain ⟨x, level⟩ := b
    subst levels second
    rw [Nat.sub_add_cancel h0]
  · rintro ⟨p, hp, h⟩
    have hl : p.level < depth := level_lt_of_children h rfl
    cases (children_eq hp hl).symm.trans h
    exact ⟨⟨Nat.succ_pos _, rfl⟩, (hp.aligned_succ hl).bit_eq_zero, rfl⟩

theorem isFamily_decides {family : List Line} (h : ∀ e ∈ family, e.Valid) :
    Decides (isFamily family) (∃ p, Element.Valid p ∧ Element.children p = .ok family) := by
  by_cases two : family.length = 2
  · obtain ⟨a, b, rfl⟩ := List.length_eq_two.mp two
    have ha := h a (by simp)
    rw [isFamily_pair ha]
    exact decides_of_ok.congr (halves_iff ha)
  · rw [isFamily_of_length_ne two]
    exact decides_false (not_family_of_length_ne two)

/-! ## Ids -/

theorem number_eq_div (within : 0 ≤ e.x ∧ e.x < 2 ^ depth) (ht : target ≤ depth) :
    (Morton.number [e.x] depth target : Int) = e.x / 2 ^ (depth - target) := by
  induction target with
  | zero => exact ((Coord.div_eq_zero_iff e.x depth).mpr within).symm
  | succ target ih =>
      have digit : Coord.cubeAt [e.x] (depth - (target + 1)) =
          Coord.bit e.x (depth - (target + 1)) := rfl
      have place : depth - target = depth - (target + 1) + 1 := pos_eq_succ (E := Line) ht
      have coarser := ih (Nat.le_of_succ_le ht)
      rw [place] at coarser
      rw [Coord.div_eq, Morton.number, digit, ← coarser]
      push_cast
      rfl

theorem number_lt (e : Line) (ht : target ≤ depth) :
    Morton.number [e.x] depth target < wordBound :=
  calc Morton.number [e.x] depth target < 2 ^ (1 * target) := Morton.number_lt _ _ _
    _ ≤ 2 ^ depth := Nat.pow_le_pow_right Nat.two_pos (by omega)
    _ < wordBound := by decide

theorem toWord_natCast {n : Nat} (h : n < wordBound) : toWord n = n := by
  unfold toWord wordBound at *
  omega

theorem linearId_eq (within : 0 ≤ e.x ∧ e.x < 2 ^ depth) (ht : target ≤ depth) :
    e.linearId target = .ok (Morton.number [e.x] depth target) := by
  rw [linearId, require_of_true ht, ok_bind, Int.shiftRight_eq_div_pow]
  push_cast
  rw [← number_eq_div within ht, toWord_natCast (number_lt e ht), pure_eq_ok]

theorem anchorOf_eq (hl : l ≤ depth) (hi : i < 2 ^ l) :
    Morton.anchorOf 1 depth l i = [((i <<< (depth - l) : Nat) : Int)] := by
  have shifted : ((i <<< (depth - l) : Nat) : Int) = i * 2 ^ (depth - l) := by
    rw [Nat.shiftLeft_eq]
    push_cast
    rfl
  have within : (0 : Int) ≤ i * 2 ^ (depth - l) ∧ (i : Int) * 2 ^ (depth - l) < 2 ^ depth := by
    rw [Coord.two_pow_eq_mul hl, Coord.mul_two_pow_nonneg_iff,
      mul_lt_mul_iff_of_pos_right (Coord.two_pow_pos _)]
    exact ⟨Int.natCast_nonneg i, by exact_mod_cast hi⟩
  have number : Morton.number [(i * 2 ^ (depth - l) : Int)] depth l = i := by
    have read := number_eq_div (e := ⟨i * 2 ^ (depth - l), l⟩) within hl
    rw [Int.mul_ediv_cancel _ (Coord.two_pow_pos _).ne'] at read
    exact_mod_cast read
  have back : Morton.anchorOf [(i * 2 ^ (depth - l) : Int)].length depth l _ = _ :=
    Morton.anchorOf_number (by decide) hl (List.forall_mem_singleton.mpr within)
  rw [number, List.map_singleton, Coord.clearBelow_eq,
    Int.mul_ediv_cancel _ (Coord.two_pow_pos _).ne', ← shifted] at back
  exact back

theorem ofLinearId_eq (hl : l ≤ depth) (hi : i < 2 ^ l) :
    ofLinearId l i = .ok ⟨(i <<< (depth - l) : Nat), l⟩ := by
  have inside : i < Nat.pow 2 l := hi
  rw [ofLinearId, require_of_true hl, ok_bind, require_of_true inside, ok_bind, pure_eq_ok]

instance : BoxCurve Line where
  isFamily_decides := isFamily_decides
  anchor_root := rfl
  level_root := rfl
  isInsideRoot_decides e := by
    change Decides (.ok (decide e.IsInsideRoot)) (∀ c ∈ [e.x], _)
    rw [List.forall_mem_singleton]
    exact decides_of_ok
  linearId_eq _ within ht := linearId_eq (within _ (List.mem_singleton_self _)) ht
  ofLinearId_eq hl hi := ⟨_, ofLinearId_eq hl hi, rfl, (anchorOf_eq hl hi).symm⟩
  ofLinearId_of_not {l i} outside := by
    change ofLinearId l i = _
    rw [ofLinearId]
    by_cases hl : l ≤ depth
    · have beyond : ¬ i < Nat.pow 2 l := fun hi => outside ⟨hl, hi⟩
      rw [require_of_true hl, ok_bind, require_of_false beyond, error_bind]
    · rw [require_of_false hl, error_bind]
  successor_eq _ _ := rfl

end MeshCurve.Line
