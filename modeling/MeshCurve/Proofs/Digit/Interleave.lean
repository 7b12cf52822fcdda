import MeshCurve.Proofs.Digit.Radix

/-!
# Interleaving and taking apart

On the ids of one level interleaving and taking apart are inverse to each other, as long as these
ids fit a word: every pair of ids has an id of its own, whose digits are the pairs of theirs.  The
radices need not be powers of two, and the last id may be the last word.
-/

namespace MeshCurve.Radix

variable {p q n k radix level i id low high : Nat}

/-! ## Digits -/

/-- All powers before the last fit, even if the last is the first number that does not. -/
theorem pow_lt_wordBound (hr : 0 < radix) (h : radix ^ level ≤ wordBound) (hk : k < level) :
    radix ^ k < wordBound := by
  obtain rfl | hr : radix = 1 ∨ 2 ≤ radix := by omega
  · rw [one_pow]
    decide
  · exact (Nat.pow_lt_pow_right hr hk).trans_le h

theorem weave_digit (hp : 0 < p) (hq : 0 < q) (hk : k < n) :
    weave p q n low high / (p * q) ^ k % (p * q) =
      low / p ^ k % p + p * (high / q ^ k % q) := by
  obtain ⟨m, rfl⟩ : ∃ m, n = m + 1 + k := ⟨n - k - 1, by omega⟩
  rw [← weave_div_pow hp hq, weave_succ_mod hp hq]

/-- The quotient of the id is taken apart first, and its last digit is a pair. -/
theorem exists_weave (hp : 0 < p) (hq : 0 < q) (h : id < (p * q) ^ n) :
    ∃ low < p ^ n, ∃ high < q ^ n, weave p q n low high = id := by
  induction n generalizing id with
  | zero => exact ⟨0, by simp, 0, by simp, by simpa [weave, eq_comm] using h⟩
  | succ n ih =>
      have quotient : id / (p * q) < (p * q) ^ n := Nat.div_lt_of_lt_mul (by rwa [← pow_succ'])
      have digit : id % (p * q) < p * q := Nat.mod_lt id (Nat.mul_pos hp hq)
      obtain ⟨low, hlow, high, hhigh, rest⟩ := ih quotient
      have lowDigit : id % (p * q) % p < p := Nat.mod_lt _ hp
      have highDigit : id % (p * q) / p < q := Nat.div_lt_of_lt_mul digit
      have lowWhole := add_digit_lt lowDigit hlow
      have highWhole := add_digit_lt highDigit hhigh
      rw [Nat.add_comm, Nat.mul_comm _ p, ← pow_succ'] at lowWhole
      rw [Nat.add_comm, Nat.mul_comm _ q, ← pow_succ'] at highWhole
      refine ⟨_, lowWhole, _, highWhole, ?_⟩
      rw [weave_append lowDigit highDigit, rest, Nat.mod_add_div, Nat.div_add_mod]

/-! ## Pairs of ids -/

/-- `id` is the id of the pair `low`, `high`: it is found from them and they from it, and each of
its digits is the pair of theirs. -/
structure Pairs (p q level id low high : Nat) : Prop where
  id_lt : id < (p * q) ^ level
  low_lt : low < p ^ level
  high_lt : high < q ^ level
  interleaved : interleave low p high q level = .ok id
  deinterleaved : deinterleave id p q level = .ok (low, high)
  digit {i : Nat} : 1 ≤ i → i ≤ level → ∃ x y, localDigit low p level i = .ok x ∧
    localDigit high q level i = .ok y ∧ localDigit id (p * q) level i = .ok (x + p * y)

theorem pairs_weave (hp : 0 < p) (hq : 0 < q) (hr : p * q < wordBound)
    (h : (p * q) ^ level ≤ wordBound) (hlow : low < p ^ level) (hhigh : high < q ^ level) :
    Pairs p q level (weave p q level low high) low high where
  id_lt := weave_lt hp hq level low high
  low_lt := hlow
  high_lt := hhigh
  interleaved := interleave_eq hp hq hr h
  deinterleaved := deinterleave_weave hp hq hr h hlow hhigh
  digit {i} h1 hi := by
    have later : level - i < level := by omega
    have fits := pow_lt_wordBound (Nat.mul_pos hp hq) h later
    have fitsLow := (pow_le_pow_mul hq (level - i)).trans_lt fits
    have fitsHigh := (pow_le_pow_mul hp (level - i)).trans_lt (Nat.mul_comm q p ▸ fits)
    refine ⟨_, _, localDigit_eq hp h1 hi (pow_eq_ok_of_lt fitsLow) low,
      localDigit_eq hq h1 hi (pow_eq_ok_of_lt fitsHigh) high, ?_⟩
    rw [localDigit_eq (Nat.mul_pos hp hq) h1 hi (pow_eq_ok_of_lt fits), weave_digit hp hq later]

/-- Every pair of ids has an id, and every id is that of a pair, for all radices and levels whose
ids fit a word. -/
theorem interleave_pairs_ids (hp : 0 < p) (hq : 0 < q) (hr : p * q < wordBound)
    (h : (p * q) ^ level ≤ wordBound) :
    (∀ low < p ^ level, ∀ high < q ^ level, ∃ id, Pairs p q level id low high) ∧
      ∀ id < (p * q) ^ level, ∃ low high, Pairs p q level id low high := by
  constructor
  · intro low hlow high hhigh
    exact ⟨_, pairs_weave hp hq hr h hlow hhigh⟩
  · intro id hid
    obtain ⟨low, hlow, high, hhigh, rfl⟩ := exists_weave hp hq hid
    exact ⟨low, high, pairs_weave hp hq hr h hlow hhigh⟩

/-- Thirty-two pairs of bits fill a word, sixteen pairs of a ternary and a quinary digit do not. -/
theorem interleave_pairs_ids_full :
    (2 * 2) ^ 32 = wordBound ∧
      (∃ low high, Pairs 2 2 32 0xffffffffffffffff low high) ∧
      (3 * 5) ^ 16 < wordBound ∧ ∃ id, Pairs 3 5 16 id 43046720 1 := by
  have full : (2 * 2) ^ 32 = wordBound := by decide
  have room : (3 * 5) ^ 16 < wordBound := by decide
  obtain ⟨_, taken⟩ :=
    interleave_pairs_ids Nat.two_pos Nat.two_pos (show 2 * 2 < wordBound by decide) full.le
  obtain ⟨put, _⟩ :=
    interleave_pairs_ids (show 0 < 3 by decide) (show 0 < 5 by decide) (by decide) room.le
  exact ⟨full, taken _ (by decide), room, put _ (by decide) _ (by decide)⟩

end MeshCurve.Radix
