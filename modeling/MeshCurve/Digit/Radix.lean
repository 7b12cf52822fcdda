import MeshCurve.Fault

/-!
# Linear ids as digit strings

A linear id is a number with one digit per level, the coarsest level first.  The
digits of a product shape are pairs: `interleave` writes two ids into one, digit
by digit, and `deinterleave` takes them apart.  Every intermediate value has to
fit a 64-bit word, except the scales, which wrap after the last digit.
-/

namespace MeshCurve.Radix

/-- The powers of `base` that fit a word. -/
def powers (base : Nat) : List Nat :=
  ((List.range 64).map (Nat.pow base)).filter (· < wordBound)

def pow (base exponent : Nat) : Except Fault Nat :=
  if 2 ≤ base ∧ 64 ≤ exponent then .error .range else word (base.pow exponent)

/-- Digit `i` of an id with `level` digits, the first being number one. -/
def localDigit (id radix level i : Nat) : Except Fault Nat := do
  require (1 ≤ i ∧ i ≤ level)
  let scale ← pow radix (level - i)
  if scale = 0 ∨ radix = 0 then .error .index else return id / scale % radix

def interleaveFrom (lowRadix highRadix : Nat) :
    (rounds scale id low high : Nat) → Except Fault Nat
  | 0, _, id, _, _ => return id
  | rounds + 1, scale, id, low, high => do
    let digit := low % lowRadix + lowRadix * (high % highRadix)
    let term ← word (digit * scale)
    let id ← word (id + term)
    interleaveFrom lowRadix highRadix rounds
      (wrapWord (scale * (lowRadix * highRadix))) id (low / lowRadix) (high / highRadix)

/-- The id whose digits are `low digit + lowRadix * high digit`. -/
def interleave (low lowRadix high highRadix level : Nat) : Except Fault Nat := do
  let radix ← word (lowRadix * highRadix)
  if level ≠ 0 ∧ radix = 0 then .error .index
  else interleaveFrom lowRadix highRadix level 1 0 low high

def deinterleaveFrom (lowRadix highRadix : Nat) :
    (rounds lowScale highScale low high rest : Nat) → Except Fault (Nat × Nat)
  | 0, _, _, low, high, _ => return (low, high)
  | rounds + 1, lowScale, highScale, low, high, rest => do
    let digit := rest % (lowRadix * highRadix)
    let lowTerm ← word (digit % lowRadix * lowScale)
    let low ← word (low + lowTerm)
    let highTerm ← word (digit / lowRadix * highScale)
    let high ← word (high + highTerm)
    deinterleaveFrom lowRadix highRadix rounds
      (wrapWord (lowScale * lowRadix)) (wrapWord (highScale * highRadix))
      low high (rest / (lowRadix * highRadix))

/-- The two ids whose digits an interleaved id holds. -/
def deinterleave (id lowRadix highRadix level : Nat) : Except Fault (Nat × Nat) := do
  let radix ← word (lowRadix * highRadix)
  if level ≠ 0 ∧ radix = 0 then .error .index
  else deinterleaveFrom lowRadix highRadix level 1 1 0 0 id

/-! ## Powers -/

theorem pow_eq_ok_of_lt {base exponent : Nat} (h : base.pow exponent < wordBound) :
    pow base exponent = .ok (base.pow exponent) := by
  have small : ¬ (2 ≤ base ∧ 64 ≤ exponent) := by
    rintro ⟨hb, he⟩
    have grow : Nat.pow 2 64 ≤ base.pow exponent :=
      Nat.le_trans (Nat.pow_le_pow_right (by decide) he)
        (Nat.pow_le_pow_left hb exponent)
    exact absurd h (Nat.not_lt.mpr grow)
  rw [pow, if_neg small, word_of_lt h]

end MeshCurve.Radix
