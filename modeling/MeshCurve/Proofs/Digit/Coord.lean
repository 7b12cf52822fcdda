import MeshCurve.Digit.Coord
import Mathlib.Tactic.Linarith
import Mathlib.Tactic.LinearCombination
import Mathlib.Tactic.Ring

/-!
# Digits of coordinates

A coordinate is *aligned* to position `k` if it is a multiple of `2 ^ k` that fits
its word.  Writing the digit at `k` takes the numbers aligned to `k + 1` to those
aligned to `k` and clearing it leads back; no digit above `k` is touched.  The
quotient by `2 ^ k` is the coordinate in units of its cells.
-/

namespace MeshCurve.Coord

/-! ## Quotients -/

theorem bit_eq (c : Int) (k : Nat) : (bit c k : Int) = c / 2 ^ k % 2 := by
  unfold bit
  rw [Int.shiftRight_eq_div_pow]
  push_cast
  omega

theorem residue_eq (c : Int) (k : Nat) : residue c k = c % 2 ^ k := by
  simp [residue, Nat.one_shiftLeft]

theorem weight_eq {k : Nat} (hk : k < 31) : weight k = 2 ^ k := by
  rw [weight_of_lt hk, Nat.one_shiftLeft]
  push_cast
  rfl

theorem setBit_eq {k : Nat} (hk : k < 31) (c : Int) (b : Nat) :
    setBit c k b = c + (b - bit c k) * 2 ^ k := by
  rw [setBit, weight_eq hk]

theorem two_pow_pos (k : Nat) : (0 : Int) < 2 ^ k := by positivity

/-- A cube of `d` levels is `2 ^ l` cells of level `l` long. -/
theorem two_pow_eq_mul {d l : Nat} (hl : l ≤ d) : (2 : Int) ^ d = 2 ^ l * 2 ^ (d - l) := by
  rw [← pow_add, Nat.add_sub_cancel' hl]

theorem mul_two_pow_le_iff (a b : Int) (k : Nat) : a * 2 ^ k ≤ b * 2 ^ k ↔ a ≤ b :=
  mul_le_mul_iff_of_pos_right (two_pow_pos k)

theorem mul_two_pow_nonneg_iff (a : Int) (k : Nat) : 0 ≤ a * 2 ^ k ↔ 0 ≤ a :=
  mul_nonneg_iff_of_pos_right (two_pow_pos k)

theorem div_succ (c : Int) (k : Nat) : c / 2 ^ (k + 1) = c / 2 ^ k / 2 := by
  rw [Int.ediv_ediv_of_nonneg (Int.le_of_lt (two_pow_pos k)), pow_succ]

theorem div_add (c : Int) (k n : Nat) : c / 2 ^ (k + n) = c / 2 ^ k / 2 ^ n := by
  rw [Int.ediv_ediv_of_nonneg (Int.le_of_lt (two_pow_pos k)), pow_add]

theorem div_eq_zero_iff (c : Int) (k : Nat) : c / 2 ^ k = 0 ↔ 0 ≤ c ∧ c < 2 ^ k := by
  constructor
  · intro h
    have whole := Int.mul_ediv_add_emod c (2 ^ k)
    rw [h, Int.mul_zero, Int.zero_add] at whole
    rw [← whole]
    exact ⟨Int.emod_nonneg c (two_pow_pos k).ne', Int.emod_lt_of_pos c (two_pow_pos k)⟩
  · rintro ⟨lower, upper⟩
    exact Int.ediv_eq_zero_of_lt lower upper

theorem div_eq (c : Int) (k : Nat) : c / 2 ^ k = 2 * (c / 2 ^ (k + 1)) + bit c k := by
  rw [div_succ, bit_eq]
  omega

theorem clearBelow_eq (c : Int) (k : Nat) : clearBelow c k = c / 2 ^ k * 2 ^ k := by
  rw [clearBelow, residue_eq]
  linear_combination -(Int.emod_add_mul_ediv c (2 ^ k))

theorem setBit_div_self {k : Nat} (hk : k < 31) (c : Int) (b : Nat) :
    setBit c k b / 2 ^ k = c / 2 ^ k + (b - bit c k) := by
  rw [setBit_eq hk, Int.add_mul_ediv_right _ _ (two_pow_pos k).ne']

theorem setBit_div_eq {k : Nat} (hk : k < 31) (c : Int) (b : Nat) :
    setBit c k b / 2 ^ k = 2 * (c / 2 ^ (k + 1)) + b := by
  rw [setBit_div_self hk, div_eq]
  omega

theorem setBit_div_of_lt {k j : Nat} (hk : k < 31) (hj : k < j) (c : Int) {b : Nat}
    (hb : b < 2) : setBit c k b / 2 ^ j = c / 2 ^ j := by
  obtain ⟨n, rfl⟩ := Nat.exists_eq_add_of_lt hj
  have next : setBit c k b / 2 ^ (k + 1) = c / 2 ^ (k + 1) := by
    rw [div_succ, div_succ, setBit_div_self hk, bit_eq]
    omega
  rw [show k + n + 1 = (k + 1) + n by omega, div_add, next, ← div_add]

/-! ## Digits -/

@[simp] theorem bit_setBit {k : Nat} (hk : k < 31) (c : Int) {b : Nat} (hb : b < 2) :
    bit (setBit c k b) k = b := by
  have h := bit_eq (setBit c k b) k
  rw [setBit_div_self hk, bit_eq c] at h
  omega

theorem bit_setBit_of_lt {k j : Nat} (hk : k < 31) (hj : k < j) (c : Int) {b : Nat}
    (hb : b < 2) : bit (setBit c k b) j = bit c j := by
  have h := bit_eq (setBit c k b) j
  rw [setBit_div_of_lt hk hj c hb, ← bit_eq] at h
  exact_mod_cast h

theorem setBit_setBit {k : Nat} (hk : k < 31) (c : Int) {a : Nat} (ha : a < 2) (b : Nat) :
    setBit (setBit c k a) k b = setBit c k b := by
  rw [setBit_eq hk (setBit c k a), bit_setBit hk c ha, setBit_eq hk, setBit_eq hk]
  ring

theorem residue_succ (c : Int) (k : Nat) :
    residue c (k + 1) = residue c k + bit c k * 2 ^ k := by
  have low := clearBelow_eq c k
  have high := clearBelow_eq c (k + 1)
  rw [clearBelow] at low high
  rw [div_eq] at low
  linear_combination low - high

@[simp] theorem residue_setBit {k : Nat} (hk : k < 31) (c : Int) (b : Nat) :
    residue (setBit c k b) k = residue c k := by
  rw [residue_eq, residue_eq, setBit_eq hk, Int.add_mul_emod_self_right]

theorem clearBelow_setBit {k j : Nat} (hk : k < 31) (hj : k < j) (c : Int) {b : Nat}
    (hb : b < 2) : clearBelow (setBit c k b) j = clearBelow c j := by
  rw [clearBelow_eq, clearBelow_eq, setBit_div_of_lt hk hj c hb]

/-! ## Common digits -/

theorem clearBelow_eq_iff {a b : Int} {k : Nat} :
    clearBelow a k = clearBelow b k ↔ a / 2 ^ k = b / 2 ^ k := by
  rw [clearBelow_eq, clearBelow_eq]
  exact mul_left_inj' (two_pow_pos k).ne'

theorem clearBelow_congr {a b : Int} {j k : Nat} (h : clearBelow a j = clearBelow b j)
    (hjk : j ≤ k) : clearBelow a k = clearBelow b k := by
  obtain ⟨n, rfl⟩ := Nat.exists_eq_add_of_le hjk
  rw [clearBelow_eq_iff] at h ⊢
  rw [div_add, div_add, h]

theorem clearBelow_clearBelow {j k : Nat} (hjk : j ≤ k) (c : Int) :
    clearBelow (clearBelow c j) k = clearBelow c k := by
  refine clearBelow_congr ?_ hjk
  rw [clearBelow_eq_iff, clearBelow_eq, Int.mul_ediv_cancel _ (two_pow_pos j).ne']

theorem spread_le_iff {a b : Int} {k : Nat} (hk : k < 32) :
    spread a b ≤ k ↔ clearBelow a k = clearBelow b k := by
  have same (d : Nat) : a >>> d = b >>> d ↔ clearBelow a d = clearBelow b d := by
    rw [clearBelow_eq_iff, Int.shiftRight_eq_div_pow, Int.shiftRight_eq_div_pow]
    push_cast
    rfl
  unfold spread
  cases found : (List.range 32).find? fun d : Nat => a >>> d = b >>> d with
  | none =>
      have never := List.find?_eq_none.mp found k (List.mem_range.mpr hk)
      rw [decide_eq_true_iff, same] at never
      exact iff_of_false (Nat.not_le.mpr hk) never
  | some d =>
      obtain ⟨agree, _, before⟩ := List.find?_range_eq_some.mp found
      rw [decide_eq_true_iff, same] at agree
      refine ⟨fun hle => clearBelow_congr agree hle, fun here => ?_⟩
      by_contra hlt
      have apart := before k (Nat.lt_of_not_le hlt)
      rw [Bool.not_eq_true', decide_eq_false_iff_not, same] at apart
      exact apart here

/-- Within one tree, where at least the digits above the first level agree. -/
theorem le_commonLevel_iff {a b : Int} {depth l : Nat} (hd : depth ≤ 30) (hl : l ≤ depth)
    (tree : clearBelow a depth = clearBelow b depth) :
    l ≤ commonLevel a b depth ↔ clearBelow a (depth - l) = clearBelow b (depth - l) := by
  have fits : spread a b ≤ depth := (spread_le_iff (by omega)).mpr tree
  rw [← spread_le_iff (by omega), commonLevel, if_neg (by omega)]
  omega

/-! ## Alignment -/

/-- A coordinate of cells with edge length `2 ^ k`. -/
def Aligned (c : Int) (k : Nat) : Prop := IsCoordinate c ∧ residue c k = 0

theorem Aligned.clearBelow_eq {c : Int} {k : Nat} (h : Aligned c k) : clearBelow c k = c := by
  rw [clearBelow, h.2, Int.sub_zero]

theorem Aligned.eq_mul {c : Int} {k : Nat} (h : Aligned c k) : c = c / 2 ^ k * 2 ^ k := by
  rw [← Coord.clearBelow_eq, h.clearBelow_eq]

theorem Aligned.add_mul {c : Int} {k : Nat} (h : Aligned c k) (s : Int) :
    c + s * 2 ^ k = (c / 2 ^ k + s) * 2 ^ k := by
  rw [Int.add_mul, ← h.eq_mul]

theorem aligned_zero (k : Nat) : Aligned 0 k :=
  ⟨by decide, by rw [residue_eq, Int.zero_emod]⟩

theorem aligned_mul {q : Int} {k : Nat} (h : IsCoordinate (q * 2 ^ k)) :
    Aligned (q * 2 ^ k) k := by
  refine ⟨h, ?_⟩
  rw [residue_eq, Int.mul_emod_left]

theorem Aligned.bit_eq_zero {c : Int} {k : Nat} (h : Aligned c (k + 1)) : bit c k = 0 := by
  have even : c / 2 ^ k = 2 * (c / 2 ^ (k + 1)) := by
    conv_lhs => rw [h.eq_mul]
    rw [show c / 2 ^ (k + 1) * 2 ^ (k + 1) = 2 * (c / 2 ^ (k + 1)) * 2 ^ k by ring,
      Int.mul_ediv_cancel _ (two_pow_pos k).ne']
  have digit := div_eq c k
  omega

theorem Aligned.of_succ {c : Int} {k : Nat} (h : Aligned c (k + 1)) : Aligned c k := by
  refine ⟨h.1, ?_⟩
  have whole := h.2
  rw [residue_succ, h.bit_eq_zero] at whole
  simpa using whole

theorem Aligned.of_le {c : Int} {j k : Nat} (h : Aligned c j) (hk : k ≤ j) : Aligned c k := by
  induction hk with
  | refl => exact h
  | step _ ih => exact ih h.of_succ

theorem Aligned.bounds {c : Int} {k : Nat} (hk : k ≤ 31) (h : Aligned c k) :
    -0x80000000 ≤ c ∧ c + 2 ^ k ≤ 0x80000000 := by
  refine ⟨h.1.1, ?_⟩
  have split : (0x80000000 : Int) = 2 ^ (31 - k) * 2 ^ k := by
    rw [← pow_add, show 31 - k + k = 31 by omega]
    rfl
  have upper := h.1.2
  rw [h.eq_mul, split] at upper
  have quotient : c / 2 ^ k + 1 ≤ 2 ^ (31 - k) :=
    lt_of_mul_lt_mul_right upper (Int.le_of_lt (two_pow_pos k))
  calc c + 2 ^ k = (c / 2 ^ k + 1) * 2 ^ k := by
        conv_lhs => rw [h.eq_mul]
        ring
    _ ≤ 2 ^ (31 - k) * 2 ^ k :=
        Int.mul_le_mul_of_nonneg_right quotient (Int.le_of_lt (two_pow_pos k))
    _ = 0x80000000 := split.symm

theorem Aligned.setBit_fine {c : Int} {k b : Nat} (hk : k < 31) (hb : b < 2)
    (h : Aligned c (k + 1)) : Aligned (setBit c k b) k := by
  refine ⟨?_, by rw [residue_setBit hk, h.of_succ.2]⟩
  obtain ⟨lower, upper⟩ := h.bounds hk
  have pos := two_pow_pos k
  rw [setBit_eq hk, h.bit_eq_zero]
  rw [pow_succ] at upper
  obtain rfl | rfl : b = 0 ∨ b = 1 := by omega
  · exact ⟨by push_cast; omega, by push_cast; omega⟩
  · exact ⟨by push_cast; omega, by push_cast; omega⟩

theorem Aligned.setBit_zero {c : Int} {k : Nat} (hk : k < 31) (h : Aligned c k) :
    Aligned (setBit c k 0) (k + 1) := by
  have whole : setBit c k 0 = c / 2 ^ (k + 1) * 2 ^ (k + 1) := by
    have low := h.eq_mul
    rw [div_eq] at low
    rw [setBit_eq hk]
    push_cast
    linear_combination low
  have lower : (-0x80000000 : Int) ≤ setBit c k 0 := by
    rw [whole]
    have split : (-0x80000000 : Int) = -2 ^ (30 - k) * 2 ^ (k + 1) := by
      rw [neg_mul, ← pow_add, show 30 - k + (k + 1) = 31 by omega]
      rfl
    have quotient : -2 ^ (30 - k) ≤ c / 2 ^ (k + 1) :=
      (Int.le_ediv_iff_mul_le (two_pow_pos _)).mpr (split ▸ h.1.1)
    rw [split]
    exact Int.mul_le_mul_of_nonneg_right quotient (Int.le_of_lt (two_pow_pos _))
  have upper : setBit c k 0 ≤ c := by
    rw [setBit_eq hk]
    have := mul_nonneg (Int.natCast_nonneg (bit c k)) (Int.le_of_lt (two_pow_pos k))
    push_cast
    linarith
  have coordinate : IsCoordinate (setBit c k 0) := ⟨lower, lt_of_le_of_lt upper h.1.2⟩
  rw [whole] at coordinate ⊢
  exact aligned_mul coordinate

theorem Aligned.setBit_zero_eq {c : Int} {k : Nat} (h : Aligned c (k + 1)) :
    setBit c k 0 = c := by
  conv_rhs => rw [← setBit_bit c k, h.bit_eq_zero]

/-- Within an edge of length `h` from `c`, the last cell of the next level. -/
theorem Aligned.setBit_far {c h : Int} {k : Nat} (hk : k < 31)
    (aligned : Aligned (c + (h - 2 ^ (k + 1))) (k + 1)) :
    setBit (c + (h - 2 ^ (k + 1))) k 1 = c + (h - 2 ^ k) := by
  rw [setBit_eq hk, aligned.bit_eq_zero, pow_succ]
  push_cast
  ring

/-! ## Cells -/

/-- Where cell number `q` of edge length `2 ^ k` starts. -/
def ofCell (q : Int) (k : Nat) : Except Fault Int := coordinate (q * 2 ^ k)

theorem ofCell_eq_ok_iff {q c : Int} {k : Nat} :
    ofCell q k = .ok c ↔ Aligned c k ∧ c / 2 ^ k = q := by
  rw [ofCell, coordinate_eq_ok_iff]
  constructor
  · rintro ⟨fits, rfl⟩
    exact ⟨aligned_mul fits, Int.mul_ediv_cancel _ (two_pow_pos k).ne'⟩
  · rintro ⟨h, rfl⟩
    exact ⟨h.eq_mul ▸ h.1, h.eq_mul.symm⟩

theorem onlyOverflows_ofCell (q : Int) (k : Nat) : OnlyOverflows (ofCell q k) :=
  onlyOverflows_coordinate _

theorem Aligned.ofCell_div {c : Int} {k : Nat} (h : Aligned c k) :
    ofCell (c / 2 ^ k) k = .ok c :=
  ofCell_eq_ok_iff.mpr ⟨h, rfl⟩

theorem Aligned.ofCell_add {c : Int} {k : Nat} (h : Aligned c k) (s : Int) :
    ofCell (c / 2 ^ k + s) k = coordinate (c + s * 2 ^ k) := by
  rw [ofCell, h.add_mul]

/-- From a cell of the first `2 ^ d` coordinates there is room to both sides. -/
theorem Aligned.exists_ofCell_add {c s : Int} {k d : Nat} (h : Aligned c k) (hk : k ≤ d)
    (hd : d ≤ 30) (hc : 0 ≤ c ∧ c < 2 ^ d) (hs : -1 ≤ s ∧ s ≤ 1) :
    ∃ c', ofCell (c / 2 ^ k + s) k = .ok c' := by
  have edge : (2 : Int) ^ k ≤ 2 ^ d := pow_le_pow_right₀ (by decide) hk
  have cube : (2 : Int) ^ d ≤ 2 ^ 30 := pow_le_pow_right₀ (by decide) hd
  have start := two_pow_pos k
  rw [h.ofCell_add]
  obtain rfl | rfl | rfl : s = -1 ∨ s = 0 ∨ s = 1 := by omega
  all_goals exact ⟨_, coordinate_of_isCoordinate ⟨by omega, by omega⟩⟩

/-- The coordinates of the cubes next to the one that the root starts from, and its own. -/
def Near (c : Int) (d : Nat) : Prop := -2 ^ d ≤ c ∧ c < 2 * 2 ^ d

theorem Near.of_cube {c : Int} {d : Nat} (h : 0 ≤ c ∧ c ≤ 2 ^ d) : Near c d := by
  have := two_pow_pos d
  exact ⟨by omega, by omega⟩

theorem Aligned.near {c s : Int} {k d : Nat} (h : Aligned c k) (hk : k ≤ d)
    (cube : 0 ≤ c ∧ c < 2 ^ d) (hs : -1 ≤ s ∧ s ≤ 1) : Near ((c / 2 ^ k + s) * 2 ^ k) d := by
  have edge : (2 : Int) ^ k ≤ 2 ^ d := pow_le_pow_right₀ (by decide) hk
  have positive := two_pow_pos k
  rw [← h.add_mul]
  obtain rfl | rfl | rfl : s = -1 ∨ s = 0 ∨ s = 1 := by omega
  all_goals exact ⟨by omega, by omega⟩

theorem Near.isCoordinate_add {c s : Int} {k d : Nat} (h : Near c d) (hd : d < 30) (hk : k ≤ d)
    (hs : -1 ≤ s ∧ s ≤ 1) : IsCoordinate (c + s * 2 ^ k) := by
  obtain ⟨lower, upper⟩ := h
  have edge : (2 : Int) ^ k ≤ 2 ^ d := pow_le_pow_right₀ (by decide) hk
  have cube : (2 : Int) ^ d ≤ 2 ^ 29 := pow_le_pow_right₀ (by decide) (Nat.le_of_lt_succ hd)
  have positive := two_pow_pos k
  obtain rfl | rfl | rfl : s = -1 ∨ s = 0 ∨ s = 1 := by omega
  all_goals exact ⟨by omega, by omega⟩

/-- The cell on the next level, from its place in the coarse one. -/
theorem double_div_add {k : Nat} (hk : k < 31) (c : Int) (b : Nat) :
    c / 2 ^ (k + 1) + c / 2 ^ (k + 1) + b = setBit c k b / 2 ^ k := by
  rw [setBit_div_eq hk, two_mul]

theorem setBit_within_iff {c : Int} {k d b : Nat} (hk : k < d) (hd : d ≤ 31) (hb : b < 2) :
    0 ≤ setBit c k b ∧ setBit c k b < 2 ^ d ↔ 0 ≤ c ∧ c < 2 ^ d := by
  rw [← div_eq_zero_iff, ← div_eq_zero_iff, setBit_div_of_lt (by omega) hk c hb]

/-! ## Digit operations that find their position -/

section

variable {level depth : Nat}

theorem place_eq (hd : depth ≤ 30) (hl : level ≤ depth) :
    place level depth = .ok (depth - level) :=
  place_eq_ok_iff.mpr ⟨hl, by omega, rfl⟩

theorem finerPlace_eq (hd : depth ≤ 30) (hl : level ≤ depth) :
    finerPlace level depth = .ok (depth - level) := by
  rw [finerPlace, place_eq hd hl, ok_bind, if_neg (by omega)]
  rfl

theorem cutToLevel_eq (hd : depth ≤ 30) (hl : level ≤ depth) (c : Int) :
    cutToLevel c level depth = .ok (clearBelow c (depth - level)) := by
  rw [cutToLevel, finerPlace_eq hd hl]
  rfl

theorem isAligned_decides (hd : depth ≤ 30) (hl : level ≤ depth) {c : Int} :
    Decides (isAligned c level depth) (residue c (depth - level) = 0) := by
  rw [isAligned, finerPlace_eq hd hl, ok_bind]
  exact decides_of_ok

theorem cellLen_eq (hd : depth ≤ 30) (hl : level ≤ depth) :
    cellLen level depth = .ok (2 ^ (depth - level)) := by
  rw [cellLen, place_eq hd hl, ok_bind, weight_eq (by omega)]
  rfl

theorem withDigit_of_place {k b : Nat} (h : place level depth = .ok k) (c : Int) (hb : b < 2) :
    withDigit c level depth b = .ok (setBit c k b) := by
  have digit : (if b = 0 then 0 else 1) = b := by
    split <;> omega
  rw [withDigit, h, ok_bind, digit]
  rfl

theorem withDigit_eq (hd : depth ≤ 30) (hl : level ≤ depth) (c : Int) {b : Nat} (hb : b < 2) :
    withDigit c level depth b = .ok (setBit c (depth - level) b) :=
  withDigit_of_place (place_eq hd hl) c hb

theorem digit_eq (hd : depth ≤ 30) (h0 : 0 < level) (hl : level ≤ depth) (c : Int) :
    digit c level depth = .ok (bit c (depth - level)) := by
  rw [digit, if_neg h0.ne', place_eq hd hl]
  rfl

theorem cubeId_eq (hd : depth ≤ 30) (h0 : 0 < level) (hl : level ≤ depth) {anchor : List Int}
    (ha : anchor.length ≤ 8) :
    cubeId anchor level depth = .ok (ofBits (anchor.map (bit · (depth - level)))) := by
  rw [cubeId, if_neg h0.ne', mapM_eq_ok fun c _ => digit_eq hd h0 hl c, ok_bind,
    if_pos (by simpa using ha)]
  rfl

end

end MeshCurve.Coord
