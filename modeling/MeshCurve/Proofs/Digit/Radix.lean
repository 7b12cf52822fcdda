import MeshCurve.Digit.Radix
import MeshCurve.Proofs.Curve
import Mathlib.Tactic.Linarith

/-!
# Interleaved digits

`weave` is the number whose digits pair those of two numbers, the lowest ones first.
Interleaving computes it as long as all pairs fit a word, and taking it apart gives
both numbers back.  Weaving respects the change of an id to another level.  The scales of
digits are powers, and those that fit a word stand in a table.
-/

namespace MeshCurve.Radix

/-! ## Powers -/

/-- Of values that increase, those below a bound come first. -/
theorem getElem?_filter_range {f : Nat → Nat} (increasing : Monotone f) {bound n k x : Nat} :
    (((List.range n).map f).filter (· < bound))[k]? = some x ↔ k < n ∧ f k = x ∧ x < bound := by
  induction n with
  | zero => simp
  | succ n ih =>
      by_cases last : f n < bound
      · have every : ∀ y ∈ (List.range (n + 1)).map f, decide (y < bound) = true := by
          simp only [List.forall_mem_map, List.mem_range, decide_eq_true_iff]
          exact fun k hk => (increasing (Nat.le_of_lt_succ hk)).trans_lt last
        rw [List.filter_eq_self.mpr every, List.getElem?_eq_some_iff]
        constructor
        · rintro ⟨hk, rfl⟩
          rw [List.length_map, List.length_range] at hk
          rw [List.getElem_map, List.getElem_range]
          exact ⟨hk, rfl, (increasing (Nat.le_of_lt_succ hk)).trans_lt last⟩
        · rintro ⟨hk, rfl, _⟩
          exact ⟨by simpa using hk, by simp⟩
      · have dropped : [f n].filter (· < bound) = [] := by simpa using last
        rw [List.range_succ, List.map_append, List.filter_append, List.map_singleton, dropped,
          List.append_nil, ih]
        refine and_congr_left fun ⟨here, small⟩ => ⟨Nat.lt_succ_of_lt, fun hk => ?_⟩
        refine Nat.lt_of_le_of_ne (Nat.le_of_lt_succ hk) ?_
        rintro rfl
        exact last (here ▸ small)

theorem pow_eq_ok_iff {base : Nat} (hb : 2 ≤ base) {exponent n : Nat} :
    pow base exponent = .ok n ↔ exponent < 64 ∧ base ^ exponent = n ∧ n < wordBound := by
  rw [pow]
  split
  · next large => exact iff_of_false (fun h => by cases h) fun h => Nat.not_lt.mpr large.2 h.1
  · next small =>
      have fits : exponent < 64 := Nat.lt_of_not_le fun h => small ⟨hb, h⟩
      rw [word_eq_ok_iff, and_iff_right fits, and_comm]
      exact and_congr_right fun same => by rw [← same]

/-- The table of the powers of a base holds exactly those that can be computed. -/
theorem getElem?_powers_eq_some_iff {base : Nat} (hb : 2 ≤ base) {exponent n : Nat} :
    (powers base)[exponent]? = some n ↔ pow base exponent = .ok n := by
  have increasing : Monotone (Nat.pow base) := fun _ _ h =>
    Nat.pow_le_pow_right (Nat.zero_lt_of_lt hb) h
  rw [powers, getElem?_filter_range increasing, pow_eq_ok_iff hb]
  rfl

/-! ## Woven digits -/

def weave (lowRadix highRadix : Nat) : (digits low high : Nat) → Nat
  | 0, _, _ => 0
  | n + 1, low, high =>
    low % lowRadix + lowRadix * (high % highRadix) +
      lowRadix * highRadix * weave lowRadix highRadix n (low / lowRadix) (high / highRadix)

theorem weave_succ (p q n low high : Nat) :
    weave p q (n + 1) low high =
      low % p + p * (high % q) + p * q * weave p q n (low / p) (high / q) := rfl

section

variable {p q n k low high : Nat}

theorem digit_lt (hp : 0 < p) (hq : 0 < q) (low high : Nat) :
    low % p + p * (high % q) < p * q := by
  have hl := Nat.mod_lt low hp
  have hh := Nat.mod_lt high hq
  calc low % p + p * (high % q) < p * (high % q + 1) := by rw [Nat.mul_succ]; omega
    _ ≤ p * q := Nat.mul_le_mul_left p hh

theorem weave_succ_mod (hp : 0 < p) (hq : 0 < q) (n low high : Nat) :
    weave p q (n + 1) low high % (p * q) = low % p + p * (high % q) := by
  rw [weave_succ, Nat.add_mul_mod_self_left, Nat.mod_eq_of_lt (digit_lt hp hq low high)]

theorem weave_succ_div (hp : 0 < p) (hq : 0 < q) (n low high : Nat) :
    weave p q (n + 1) low high / (p * q) = weave p q n (low / p) (high / q) := by
  rw [weave_succ, Nat.add_mul_div_left _ _ (Nat.mul_pos hp hq),
    Nat.div_eq_of_lt (digit_lt hp hq low high), Nat.zero_add]

theorem pair_mod (p low digit : Nat) : (low % p + p * digit) % p = low % p := by
  rw [Nat.add_mul_mod_self_left, Nat.mod_mod]

theorem pair_div (hp : 0 < p) (low digit : Nat) : (low % p + p * digit) / p = digit := by
  rw [Nat.add_mul_div_left _ _ hp, Nat.div_eq_of_lt (Nat.mod_lt low hp), Nat.zero_add]

@[simp] theorem weave_zero_zero (p q n : Nat) : weave p q n 0 0 = 0 := by
  induction n with
  | zero => rfl
  | succ n ih => simp [weave, ih]

theorem weave_lt (hp : 0 < p) (hq : 0 < q) (n low high : Nat) :
    weave p q n low high < (p * q) ^ n := by
  induction n generalizing low high with
  | zero => exact Nat.zero_lt_one
  | succ n ih =>
      have digit := digit_lt hp hq low high
      have rest : weave p q n (low / p) (high / q) + 1 ≤ (p * q) ^ n := ih _ _
      have whole := Nat.mul_le_mul_left (p * q) rest
      rw [← pow_succ', Nat.mul_succ] at whole
      rw [weave_succ]
      omega

/-- No more than the last digits count. -/
theorem weave_mod (p q n low high : Nat) :
    weave p q n low (high % q ^ n) = weave p q n low high := by
  induction n generalizing low high with
  | zero => rfl
  | succ n ih =>
      rw [weave_succ, weave_succ, pow_succ', Nat.mod_mul_right_mod, Nat.mod_mul_right_div_self, ih]

theorem weave_append {i j : Nat} (hi : i < p) (hj : j < q) (n low high : Nat) :
    weave p q (n + 1) (p * low + i) (q * high + j) =
      p * q * weave p q n low high + (i + p * j) := by
  have hp := Nat.zero_lt_of_lt hi
  have hq := Nat.zero_lt_of_lt hj
  rw [weave, Nat.mul_add_mod, Nat.mod_eq_of_lt hi, Nat.mul_add_mod, Nat.mod_eq_of_lt hj,
    Nat.mul_add_div hp, Nat.div_eq_of_lt hi, Nat.mul_add_div hq, Nat.div_eq_of_lt hj]
  simp only [Nat.add_zero]
  ring

/-! ## Other levels -/

theorem weave_div_pow (hp : 0 < p) (hq : 0 < q) (n k low high : Nat) :
    weave p q n (low / p ^ k) (high / q ^ k) = weave p q (n + k) low high / (p * q) ^ k := by
  induction k generalizing low high with
  | zero => simp
  | succ k ih =>
      rw [pow_succ', pow_succ', pow_succ', ← Nat.div_div_eq_div_mul, ← Nat.div_div_eq_div_mul,
        ← Nat.div_div_eq_div_mul, ih, ← Nat.add_assoc, weave_succ_div hp hq]

theorem weave_mul_pow (hp : 0 < p) (hq : 0 < q) (n k low high : Nat) :
    weave p q (n + k) (low * p ^ k) (high * q ^ k) = weave p q n low high * (p * q) ^ k := by
  induction k with
  | zero => simp
  | succ k ih =>
      have step := weave_append hp hq (n + k) (low * p ^ k) (high * q ^ k)
      rw [ih] at step
      calc weave p q (n + (k + 1)) (low * p ^ (k + 1)) (high * q ^ (k + 1))
          = weave p q (n + k + 1) (p * (low * p ^ k) + 0) (q * (high * q ^ k) + 0) := by
            congr 1 <;> ring
        _ = weave p q n low high * (p * q) ^ (k + 1) := by
            rw [step]
            ring

theorem weave_idAt (hp : 0 < p) (hq : 0 < q) (level low high target : Nat) :
    weave p q target (Element.idAt p level low target) (Element.idAt q level high target) =
      Element.idAt (p * q) level (weave p q level low high) target := by
  rcases Nat.le_total target level with h | h
  · obtain ⟨k, rfl⟩ := Nat.exists_eq_add_of_le h
    rw [Element.idAt_of_le h, Element.idAt_of_le h, Element.idAt_of_le h, Nat.add_sub_cancel_left,
      weave_div_pow hp hq]
  · obtain ⟨k, rfl⟩ := Nat.exists_eq_add_of_le h
    rw [Element.idAt_of_ge h, Element.idAt_of_ge h, Element.idAt_of_ge h, Nat.add_sub_cancel_left,
      weave_mul_pow hp hq]

/-! ## Descents -/

/-- Where a child is a pair of children, a descent is a pair of descents. -/
theorem descends_pair {P A B : Type} [Element P] [Element A] [Element B] {f : P → A} {g : P → B}
    (radix : Element.branching P = Element.branching A * Element.branching B)
    (pair : ∀ {d c : P} {i : Nat}, Element.child d i = .ok c →
      Element.child (f d) (i % Element.branching A) = .ok (f c) ∧
        Element.child (g d) (i / Element.branching A) = .ok (g c))
    {a d : P} {i : Nat} (h : Element.Descends a k i d) :
    ∃ low high, i = weave (Element.branching A) (Element.branching B) k low high ∧
      Element.Descends (f a) k low (f d) ∧ Element.Descends (g a) k high (g d) := by
  induction h with
  | here => exact ⟨0, 0, rfl, .here, .here⟩
  | @child d c k i j h hj hc ih =>
      obtain ⟨low, high, rfl, hlow, hhigh⟩ := ih
      obtain ⟨first, second⟩ := pair hc
      rw [radix] at hj
      have lowDigit : j % Element.branching A < Element.branching A :=
        Nat.mod_lt j (Element.branching_pos A)
      have highDigit : j / Element.branching A < Element.branching B := Nat.div_lt_of_lt_mul hj
      refine ⟨_, _, ?_, hlow.child lowDigit first, hhigh.child highDigit second⟩
      have step := weave_append lowDigit highDigit k low high
      rw [Nat.mod_add_div] at step
      rw [step, radix]

/-! ## Reading digits -/

theorem localDigit_eq {radix level i : Nat} (hr : 0 < radix) (h1 : 1 ≤ i) (hi : i ≤ level)
    (scale : pow radix (level - i) = .ok (radix ^ (level - i))) (id : Nat) :
    localDigit id radix level i = .ok (id / radix ^ (level - i) % radix) := by
  have usable : ¬ (radix ^ (level - i) = 0 ∨ radix = 0) :=
    not_or.mpr ⟨(Nat.pow_pos hr).ne', hr.ne'⟩
  rw [localDigit, require_of_true ⟨h1, hi⟩, ok_bind, scale, ok_bind, if_neg usable, pure_eq_ok]

/-! ## Interleaving -/

/-- Before the last digit the next scale still fits. -/
theorem scale_mul_lt {radix scale : Nat} (hr : 0 < radix) (h0 : 0 < scale)
    (small : scale < wordBound) (h : scale * radix ^ (n + 2) ≤ wordBound) :
    scale * radix < wordBound := by
  obtain rfl | hr : radix = 1 ∨ 2 ≤ radix := by omega
  · rwa [Nat.mul_one]
  · have positive : 0 < scale * radix := Nat.mul_pos h0 (by omega)
    calc scale * radix < scale * radix * radix := by nlinarith
      _ ≤ scale * radix * radix * radix ^ n := Nat.le_mul_of_pos_right _ (Nat.pow_pos (by omega))
      _ = scale * radix ^ (n + 2) := by ring
      _ ≤ wordBound := h

theorem add_digit_lt {base scale part digit : Nat} (hpart : part < scale) (hdigit : digit < base) :
    part + digit * scale < scale * base := by
  calc part + digit * scale < (digit + 1) * scale := by rw [Nat.succ_mul]; omega
    _ ≤ base * scale := Nat.mul_le_mul_right scale hdigit
    _ = scale * base := Nat.mul_comm _ _

theorem scale_le {base scale : Nat} (hb : 0 < base) (h : scale * base ^ (n + 1) ≤ wordBound) :
    scale * base ≤ wordBound := by
  calc scale * base ≤ scale * base * base ^ n := Nat.le_mul_of_pos_right _ (Nat.pow_pos hb)
    _ = scale * base ^ (n + 1) := by ring
    _ ≤ wordBound := h

theorem interleaveFrom_eq (hp : 0 < p) (hq : 0 < q) {scale id : Nat} (hid : id < scale)
    (small : scale < wordBound) (hs : scale * (p * q) ^ n ≤ wordBound) :
    interleaveFrom p q n scale id low high = .ok (id + scale * weave p q n low high) := by
  induction n generalizing scale id low high with
  | zero => rfl
  | succ n ih =>
      have digit : low % p + p * (high % q) < p * q := digit_lt hp hq low high
      have radix : 0 < p * q := Nat.mul_pos hp hq
      have room : scale * (p * q) ≤ wordBound := scale_le radix hs
      have whole := add_digit_lt hid digit
      rw [interleaveFrom, word_of_lt (by omega), ok_bind, word_of_lt (by omega), ok_bind]
      cases n with
      | zero =>
          simp only [interleaveFrom, weave, pure_eq_ok]
          congr 1
          ring
      | succ n =>
          have later : scale * (p * q) < wordBound :=
            scale_mul_lt radix (Nat.zero_lt_of_lt hid) small hs
          have next : scale * (p * q) * (p * q) ^ (n + 1) ≤ wordBound := by
            calc scale * (p * q) * (p * q) ^ (n + 1) = scale * (p * q) ^ (n + 1 + 1) := by ring
              _ ≤ wordBound := hs
          rw [wrapWord_of_lt later, ih whole later next, weave_succ p q (n + 1)]
          congr 1
          ring

theorem interleave_eq (hp : 0 < p) (hq : 0 < q) (hr : p * q < wordBound)
    (h : (p * q) ^ n ≤ wordBound) :
    interleave low p high q n = .ok (weave p q n low high) := by
  have positive : 0 < p * q := Nat.mul_pos hp hq
  have usable : ¬ (n ≠ 0 ∧ p * q = 0) := fun none => positive.ne' none.2
  rw [interleave, word_of_lt hr, ok_bind, if_neg usable,
    interleaveFrom_eq hp hq Nat.zero_lt_one (by decide) (by rwa [Nat.one_mul]), Nat.zero_add,
    Nat.one_mul]

/-! ## Taking apart -/

theorem pow_le_pow_mul (hq : 0 < q) (n : Nat) : p ^ n ≤ (p * q) ^ n :=
  Nat.pow_le_pow_left (Nat.le_mul_of_pos_right p hq) n

/-- One round moves a digit from the rest to the sum. -/
theorem sum_add_digit (a s x p : Nat) : a + x % p * s + s * p * (x / p) = a + s * x := by
  conv_rhs => rw [← Nat.mod_add_div x p]
  ring

theorem deinterleaveFrom_weave (hp : 0 < p) (hq : 0 < q) {s t a b : Nat} (ha : a < s) (hb : b < t)
    (hs : s < wordBound) (ht : t < wordBound) (roomS : s * p ^ n ≤ wordBound)
    (roomT : t * q ^ n ≤ wordBound) (hlow : low < p ^ n) (hhigh : high < q ^ n) :
    deinterleaveFrom p q n s t a b (weave p q n low high) =
      .ok (a + s * low, b + t * high) := by
  induction n generalizing s t a b low high with
  | zero =>
      obtain rfl : low = 0 := by simpa using hlow
      obtain rfl : high = 0 := by simpa using hhigh
      rfl
  | succ n ih =>
      have ha' := add_digit_lt ha (Nat.mod_lt low hp)
      have hb' := add_digit_lt hb (Nat.mod_lt high hq)
      have nextS := scale_le hp roomS
      have nextT := scale_le hq roomT
      have lowRest : low / p < p ^ n := Nat.div_lt_of_lt_mul (by rwa [← pow_succ'])
      have highRest : high / q < q ^ n := Nat.div_lt_of_lt_mul (by rwa [← pow_succ'])
      have lowSum := sum_add_digit a s low p
      have highSum := sum_add_digit b t high q
      rw [deinterleaveFrom]
      simp only [weave_succ_mod hp hq, weave_succ_div hp hq, pair_mod, pair_div hp]
      rw [word_of_lt (by omega), ok_bind, word_of_lt (by omega), ok_bind, word_of_lt (by omega),
        ok_bind, word_of_lt (by omega), ok_bind]
      cases n with
      | zero =>
          -- the scales wrap after the last digit, when nothing is left to add
          rw [pow_zero, Nat.lt_one_iff] at lowRest highRest
          rw [lowRest, Nat.mul_zero, Nat.add_zero] at lowSum
          rw [highRest, Nat.mul_zero, Nat.add_zero] at highSum
          rw [deinterleaveFrom, lowSum, highSum, pure_eq_ok]
      | succ n =>
          have laterS := scale_mul_lt hp (Nat.zero_lt_of_lt ha) hs roomS
          have laterT := scale_mul_lt hq (Nat.zero_lt_of_lt hb) ht roomT
          rw [wrapWord_of_lt laterS, wrapWord_of_lt laterT,
            ih ha' hb' laterS laterT _ _ lowRest highRest, lowSum, highSum]
          · rwa [Nat.mul_assoc, ← pow_succ']
          · rwa [Nat.mul_assoc, ← pow_succ']

theorem deinterleave_weave (hp : 0 < p) (hq : 0 < q) (hr : p * q < wordBound)
    (h : (p * q) ^ n ≤ wordBound) (hlow : low < p ^ n) (hhigh : high < q ^ n) :
    deinterleave (weave p q n low high) p q n = .ok (low, high) := by
  have positive : 0 < p * q := Nat.mul_pos hp hq
  have usable : ¬ (n ≠ 0 ∧ p * q = 0) := fun none => positive.ne' none.2
  have hs : 1 * p ^ n ≤ wordBound := by
    rw [Nat.one_mul]
    exact (pow_le_pow_mul hq n).trans h
  have ht : 1 * q ^ n ≤ wordBound := by
    rw [Nat.one_mul]
    exact (pow_le_pow_mul hp n).trans (Nat.mul_comm q p ▸ h)
  rw [deinterleave, word_of_lt hr, ok_bind, if_neg usable,
    deinterleaveFrom_weave hp hq Nat.zero_lt_one Nat.zero_lt_one (by decide) (by decide) hs ht
      hlow hhigh]
  simp

end

end MeshCurve.Radix
