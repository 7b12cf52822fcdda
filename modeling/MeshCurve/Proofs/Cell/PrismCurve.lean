import MeshCurve.Proofs.Cell.PrismTree

/-!
# The curve of prisms

The id of a prism interleaves those of its factors, at every level.  The way to the
next prism climbs while the number of the child is the last one.
-/

namespace MeshCurve.Prism

open Element
open Radix (weave)

variable {e : Prism} {l i target : Nat}

/-! ## Ids -/

theorem valid_root : (root : Prism).Valid := by decide

theorem level_le_of_descends_root (h : Descends root l i e) : l ≤ depth :=
  Nat.zero_add l ▸ h.level_le_finest valid_root rfl

theorem pow_small (ht : target ≤ depth) : (4 * 2) ^ target ≤ wordBound :=
  calc (4 * 2) ^ target ≤ 8 ^ depth := Nat.pow_le_pow_right (by decide) ht
    _ ≤ wordBound := by decide

theorem linearId_eq (h : Descends root l i e) (ht : target ≤ depth) :
    e.linearId target = .ok (idAt 8 l i target) := by
  obtain ⟨t, m, rfl, htri, hline⟩ := factors_of_descends h
  have bound : target ≤ 21 := ht
  have idT : Kuhn.linearId e.tri target = .ok (idAt 4 l t target) :=
    linearId_of_descends htri (show target ≤ 29 by omega)
  have idN : e.line.linearId target = .ok (idAt 2 l m target) :=
    linearId_of_descends hline (show target ≤ 30 by omega)
  rw [linearId, require_of_true ht, ok_bind, idT, ok_bind, idN, ok_bind,
    Radix.interleave_eq (by decide) (by decide) (by decide) (pow_small ht),
    Radix.weave_idAt (by decide) (by decide)]

theorem ofLinearId_eq (h : Descends root l i e) : ofLinearId l i = .ok e := by
  have hl := level_le_of_descends_root h
  have inside : i < Nat.pow 8 l := h.lt
  have valid : e.Valid := h.valid valid_root
  obtain ⟨t, m, rfl, htri, hline⟩ := factors_of_descends h
  have idT : Kuhn.ofLinearId l t = .ok e.tri := ofLinearId_of_descends htri
  have idN : Line.ofLinearId l m = .ok e.line := ofLinearId_of_descends hline
  rw [ofLinearId, require_of_true hl, ok_bind, require_of_true inside, ok_bind,
    Radix.deinterleave_weave (by decide) (by decide) (by decide) (pow_small hl) htri.lt hline.lt,
    ok_bind]
  exact both_eq idT idN valid.1 valid.2.1

instance : LawfulNumbering Prism where
  valid_root := valid_root
  level_root := rfl
  isInsideRoot_child {p c i} hp h := by
    obtain ⟨_, _, _, ht, hn⟩ := child_eq_ok_iff.mp h
    change (do if ← Element.isInsideRoot c.tri then Element.isInsideRoot c.line else return false) =
      (do if ← Element.isInsideRoot p.tri then Element.isInsideRoot p.line else return false)
    rw [isInsideRoot_child (Valid.tri hp) ht, isInsideRoot_child (Valid.line hp) hn]
  isInsideRoot_of_level_zero {r} hr hl := by
    have level := Except.ok.inj ((Valid.level_eq hr).symm.trans hl)
    have tri := isInsideRoot_of_level_zero (Valid.tri hr) (congrArg Except.ok level)
    have line := isInsideRoot_of_level_zero (Valid.line hr) (congrArg Except.ok (hr.1 ▸ level))
    refine (tri.and fun _ => line).congr ?_
    obtain ⟨t, n⟩ := r
    simp only [Element.root, root, Prism.mk.injEq]
  linearId_of_descends := linearId_eq
  ofLinearId_of_descends := ofLinearId_eq

/-! ## Succession -/

/-- The climb ends at the turn. -/
theorem climbLast_of_turn {s : Prism} {t n m q j : Nat} (turn : Turn 8 t n m q j)
    (h : Descends root t n s) :
    ∃ u, Descends root (m + 1) (8 * q + j) u ∧ climbLast t s = .ok u := by
  induction turn generalizing s with
  | @stay m q j hj =>
      obtain ⟨d, hd, hs⟩ := (descends_child_iff (Nat.lt_of_succ_lt hj)).mp h
      have digit : s.childId = .ok j := (of_child (hd.valid valid_root) hs).2.2
      refine ⟨s, h, ?_⟩
      rw [climbLast, digit, ok_bind, if_neg (by omega), pure_eq_ok]
  | @carry t n m q j turn ih =>
      obtain ⟨d, hd, hs⟩ := (descends_child_iff (by decide)).mp h
      obtain ⟨_, up, digit⟩ := of_child (hd.valid valid_root) hs
      have up : s.parent = .ok d := up
      have digit : s.childId = .ok 7 := digit
      have own : s.level = .ok (t + 1) := h.level_of_root
      have higher : 1 < t + 1 := Nat.succ_lt_succ (Nat.zero_lt_of_lt turn.level_lt)
      obtain ⟨u, hu, rest⟩ := ih hd
      refine ⟨u, hu, ?_⟩
      rw [climbLast, digit, ok_bind, if_pos rfl, own, ok_bind, require_of_true higher, ok_bind, up,
        ok_bind, rest]

theorem climbLast_of_last {s : Prism} {t n : Nat} (last : n + 1 = 8 ^ (t + 1))
    (h : Descends root (t + 1) n s) : climbLast (t + 1) s = .error .contract := by
  induction t generalizing s n with
  | zero =>
      obtain rfl : n = 7 := by omega
      obtain ⟨d, hd, hs⟩ := descends_succ_iff.mp h
      have digit : s.childId = .ok 7 := (of_child (hd.valid valid_root) hs).2.2
      have own : s.level = .ok 1 := h.level_of_root
      rw [climbLast, digit, ok_bind, if_pos rfl, own, ok_bind, require_of_false (by decide),
        error_bind]
  | succ t ih =>
      obtain ⟨d, hd, hs⟩ := descends_succ_iff.mp h
      obtain ⟨_, up, digit⟩ := of_child (hd.valid valid_root) hs
      rw [← Nat.div_add_mod n 8] at last
      obtain ⟨full, rest⟩ := digits_of_last (Nat.mod_lt n (by decide)) last
      have seven : n % branching Prism = 7 := Nat.succ_injective full
      have up : s.parent = .ok d := up
      have digit : s.childId = .ok 7 := digit.trans (congrArg Except.ok seven)
      have own : s.level = .ok (t + 2) := h.level_of_root
      rw [climbLast, digit, ok_bind, if_pos rfl, own, ok_bind,
        require_of_true (Nat.one_lt_succ_succ t), ok_bind, up, ok_bind, ih rest hd]

theorem successor_eq {s : Prism} (own : e.level = .ok l) (h1 : 1 ≤ target)
    (ht : target ≤ depth) (up : target ≤ l → e.ancestor target = .ok s)
    (down : l ≤ target → e.firstDescendant target = .ok s) :
    e.successor target = (do
      let turn ← climbLast target s
      let p ← turn.parent
      let i ← turn.childId
      let next ← p.child (i + 1)
      next.firstDescendant target) := by
  rw [successor, require_of_true ⟨h1, ht⟩, ok_bind, own, ok_bind]
  by_cases hle : target ≤ l
  · simp only [if_pos hle, up hle, ok_bind]
  · simp only [if_neg hle, down (Nat.le_of_not_le hle), ok_bind]

instance : LawfulCurve Prism where
  successor_of_descends {e l i target} h h1 ht := by
    obtain ⟨s, hs, up, down⟩ := h.exists_idAt ht
    unfold SuccessorLaw
    change if _ then successor e target = _ else ∃ d, successor e target = _ ∧ _
    rw [successor_eq h.level_of_root h1 ht up down]
    split
    · next last =>
        obtain ⟨t, rfl⟩ : ∃ t, target = t + 1 := ⟨target - 1, by omega⟩
        rw [climbLast_of_last last hs, error_bind]
    · next more =>
        obtain ⟨m, q, j, turn⟩ := (last_or_turn hs.lt).resolve_left more
        obtain ⟨u, hu, climb⟩ := climbLast_of_turn turn hs
        obtain ⟨p, c, d, up, digit, next, first, hd⟩ := turn.exists_next ht hu
        have up : u.parent = .ok p := up
        have digit : u.childId = .ok j := digit
        have next : p.child (j + 1) = .ok c := next
        have first : c.firstDescendant target = .ok d := first
        exact ⟨d, by rw [climb, ok_bind, up, ok_bind, digit, ok_bind, next, ok_bind, first], hd⟩

end MeshCurve.Prism
