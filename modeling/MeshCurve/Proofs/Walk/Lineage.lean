import MeshCurve.Proofs.Walk.Subtree
import Mathlib.Data.Nat.Digits.Defs

/-!
# Up and down the tree

An element is the child of one parent under one number, so that the way up and the way
down are inverse, wherever the element lies.  Several levels are crossed at once by calls
of their own: the ancestor, the first and the last descendant are where the parent, the
first and the last child lead when they are taken level by level.
-/

namespace MeshCurve.Element

section

variable {E : Type}

theorem climb_succ_last (step : E → Except Fault E) (n : Nat) (e : E) :
    climb step (n + 1) e = climb step n e >>= step := by
  induction n generalizing e with
  | zero =>
      rw [climb, climb, pure_eq_ok, ok_bind]
      cases step e <;> rfl
  | succ n ih =>
      rw [climb, climb]
      cases step e with
      | error fault => rfl
      | ok next => exact ih next

end

variable {E : Type} [Element E] {a c d e p q : E} {i j k l target : Nat}

/-! ## One level -/

theorem child_injective [LawfulForest E] (hp : Valid p) (hq : Valid q)
    (hc : child p i = .ok c) (hc' : child q j = .ok c) : p = q ∧ i = j := by
  obtain ⟨_, up, digit⟩ := of_child hp hc
  obtain ⟨_, up', digit'⟩ := of_child hq hc'
  exact ⟨Except.ok.inj (up.symm.trans up'), Except.ok.inj (digit.symm.trans digit')⟩

/-! ## Several levels -/

/-- Takes child `i` level by level. -/
def goDown (i n : Nat) (e : E) : Except Fault E := climb (child · i) n e

/-- Every digit of the number that child `i` leads to, taken level by level, is `i`. -/
theorem goDown_eq_ok_iff (hi : i < branching E) : goDown i k a = .ok d ↔
    Descends a k (Nat.ofDigits (branching E) (List.replicate k i)) d := by
  induction k generalizing d with
  | zero =>
      rw [List.replicate_zero, Nat.ofDigits_nil, descends_zero_iff, goDown, climb, pure_eq_ok,
        Except.ok.injEq, eq_comm, and_iff_right rfl]
  | succ k ih =>
      have digits : Nat.ofDigits (branching E) (List.replicate (k + 1) i) =
          branching E * Nat.ofDigits (branching E) (List.replicate k i) + i :=
        Nat.ofDigits_cons.trans (Nat.add_comm _ _)
      rw [digits, descends_child_iff hi, goDown, climb_succ_last, bind_eq_ok_iff]
      exact exists_congr fun b => and_congr_left fun _ => ih

theorem ofDigits_last {base : Nat} (hb : 0 < base) (n : Nat) :
    Nat.ofDigits base (List.replicate n (base - 1)) = base ^ n - 1 := by
  induction n with
  | zero => rfl
  | succ n ih =>
      rw [List.replicate_succ, Nat.ofDigits_cons, ih, Nat.add_comm]
      exact last_append hb n

theorem Descends.goDown_first (h : Descends a k 0 d) : goDown 0 k a = .ok d := by
  rwa [goDown_eq_ok_iff (branching_pos E), Nat.ofDigits_replicate_zero]

theorem Descends.goDown_last (h : Descends a k (branching E ^ k - 1) d) :
    goDown (branching E - 1) k a = .ok d := by
  have pos := branching_pos E
  rwa [goDown_eq_ok_iff (Nat.sub_lt pos Nat.one_pos), ofDigits_last pos]

end MeshCurve.Element

namespace MeshCurve

open Element

/-- Wherever an element lies, it is the parent of its children, which know their numbers, and
the child of its parent under its own number, and under no other and of nothing else. -/
theorem parent_inverts_child (s : Shape) {e : s.Carrier} (he : Valid e) :
    ∃ l, level e = .ok l ∧
      (l < s.maxLevel → ∀ i < s.numChildren, ∃ c, child e i = .ok c ∧ Valid c ∧
        parent c = .ok e ∧ childId c = .ok i) ∧
      (0 < l → ∃ p i, parent e = .ok p ∧ childId e = .ok i ∧ Valid p ∧ i < s.numChildren ∧
        child p i = .ok e) ∧
      ∀ p q i j, Valid p → Valid q → child p i = .ok e → child q j = .ok e → p = q ∧ i = j := by
  rw [← finest_carrier, ← branching_carrier]
  obtain ⟨l, _, hl⟩ := level_of_valid he
  refine ⟨l, hl, fun finer i hi => child_of_valid he hl finer hi, ?_, ?_⟩
  · intro deeper
    obtain ⟨m, rfl⟩ := Nat.exists_eq_add_one.mpr deeper
    obtain ⟨p, i, hi, up, digit, hp, down⟩ := parent_of_valid he hl
    exact ⟨p, i, up, digit, hp, hi, down⟩
  · exact fun p q i j hp hq => child_injective hp hq

theorem parent_inverts_child_tet :
    Valid outerTet ∧ (∃ c, child outerTet 6 = .ok c ∧ Valid c ∧ parent c = .ok outerTet ∧
      childId c = .ok 6) ∧
    ∃ p i, parent outerTet = .ok p ∧ childId outerTet = .ok i ∧ Valid p ∧
      i < Shape.numChildren .tet ∧ child p i = .ok outerTet := by
  have valid : Valid outerTet := by decide
  obtain ⟨l, hl, down, up, _⟩ := parent_inverts_child .tet valid
  obtain rfl : 1 = l := Except.ok.inj hl
  exact ⟨valid, down (by decide) 6 (by decide), up (by decide)⟩

/-- To go several levels at once leads where it leads to go level by level.  The last
descendant is computed wherever the anchor is in the cube of the root. -/
theorem navigation_is_stepwise (s : Shape) {e : s.Carrier} (he : Valid e) :
    ∃ l, level e = .ok l ∧
      (∀ k ≤ l, ∃ a, ancestor e k = .ok a ∧ climb parent (l - k) e = .ok a) ∧
      ∀ target, l ≤ target → target ≤ s.maxLevel →
        (∃ d, firstDescendant e target = .ok d ∧ goDown 0 (target - l) e = .ok d) ∧
        (InCube e → ∃ d, lastDescendant e target = .ok d ∧
          goDown (s.numChildren - 1) (target - l) e = .ok d) := by
  rw [← finest_carrier, ← branching_carrier]
  obtain ⟨l, _, hl⟩ := level_of_valid he
  refine ⟨l, hl, ?_, ?_⟩
  · intro k hk
    obtain ⟨a, i, up, ha, _, hi⟩ := exists_ancestor_eq he hl hk
    exact ⟨a, up, hi.climb ha⟩
  · intro target hle ht
    obtain ⟨first, hfirst, down⟩ := firstDescendant_of_valid he hl hle ht
    refine ⟨⟨first, hfirst, down.goDown_first⟩, fun cube => ?_⟩
    obtain ⟨last, hlast⟩ := exists_lastDescendant he cube hl hle ht
    obtain ⟨_, down'⟩ := descends_of_lastDescendant he hl hlast
    exact ⟨last, hlast, down'.goDown_last⟩

/-- In the cubes of both factors, above the diagonal that bounds the root. -/
def upperPrism : Prism := ⟨⟨0, 0x10000000, 1, 1⟩, ⟨0x20000000, 1⟩⟩

theorem navigation_is_stepwise_prism :
    Valid upperPrism ∧ ¬ InRoot upperPrism ∧ InCube upperPrism ∧
      (∃ a, ancestor upperPrism 0 = .ok a ∧ climb parent 1 upperPrism = .ok a) ∧
      (∃ d, firstDescendant upperPrism 21 = .ok d ∧ goDown 0 20 upperPrism = .ok d) ∧
      ∃ d, lastDescendant upperPrism 21 = .ok d ∧ goDown 7 20 upperPrism = .ok d := by
  have valid : Valid upperPrism := by decide
  have cube : InCube upperPrism := by decide
  have outside : ¬ InRoot upperPrism := fun h => absurd h.2 (by decide)
  obtain ⟨l, hl, up, down⟩ := navigation_is_stepwise .prism valid
  obtain rfl : 1 = l := Except.ok.inj hl
  obtain ⟨first, last⟩ := down 21 (by decide) (by decide)
  exact ⟨valid, outside, cube, up 0 (by decide), first, last cube⟩

end MeshCurve
