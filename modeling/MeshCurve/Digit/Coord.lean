import MeshCurve.Fault

/-!
# Coordinates as digit strings

An anchor coordinate is a fixed-point number: in a mesh whose finest level is
`depth`, the root has edge length `2 ^ depth` and the binary digit of level `l`
stands at position `depth - l`.  Refining by one level writes one digit.

The digit operations take a level and a depth; what they do at a position is a
total function of the number, and only finding the position can fail.
-/

namespace MeshCurve.Coord

/-! ## Positions -/

/-- Place value of position `k`: the top digit of a 32-bit number is negative. -/
def weight (k : Nat) : Int := if k = 31 then -0x80000000 else (1 <<< k : Nat)

def bit (c : Int) (k : Nat) : Nat := (c >>> k % 2).toNat

def setBit (c : Int) (k b : Nat) : Int := c + ((b : Int) - bit c k) * weight k

def residue (c : Int) (k : Nat) : Int := c % (1 <<< k : Nat)

def clearBelow (c : Int) (k : Nat) : Int := c - residue c k

def place (level depth : Nat) : Except Fault Nat :=
  if depth < level then .error .contract
  else if 32 ≤ depth - level then .error .range
  else .ok (depth - level)

/-! ## Digits -/

def cellLen (level depth : Nat) : Except Fault Int := do
  let k ← place level depth
  return weight k

def rootLen (depth : Nat) : Except Fault Int := cellLen 0 depth

/-- The digit of `level`; the root contributes no digit, read as zero. -/
def digit (c : Int) (level depth : Nat) : Except Fault Nat :=
  if level = 0 then return 0 else do
    let k ← place level depth
    return bit c k

/-- Replaces the digit of `level` by one, or by zero if `b` is zero. -/
def withDigit (c : Int) (level depth b : Nat) : Except Fault Int := do
  let k ← place level depth
  return setBit c k (if b = 0 then 0 else 1)

/-- Position below which all digits are finer than `level`.  The lowest 31
digits are the most that can be masked. -/
def finerPlace (level depth : Nat) : Except Fault Nat := do
  let k ← place level depth
  if k = 31 then .error .range else return k

def cutToLevel (c : Int) (level depth : Nat) : Except Fault Int := do
  let k ← finerPlace level depth
  return clearBelow c k

def isAligned (c : Int) (level depth : Nat) : Except Fault Bool := do
  let k ← finerPlace level depth
  return residue c k = 0

/-- Number with binary digits `ds`, lowest first. -/
def ofBits : List Nat → Nat
  | [] => 0
  | d :: ds => d + 2 * ofBits ds

/-- The digits of one level on every axis, packed with axis 0 lowest. -/
def cubeId (anchor : List Int) (level depth : Nat) : Except Fault Nat :=
  if level = 0 then return 0 else do
    let ds ← anchor.mapM (digit · level depth)
    if ds.length ≤ 8 then return ofBits ds else .error .range

/-! ## Change of depth -/

def wrap (c : Int) : Int := Int.bmod c 0x100000000

/-- Moves a coordinate between two depths. -/
def rescale (c : Int) (fromDepth toDepth : Nat) : Except Fault Int :=
  if fromDepth ≤ toDepth then
    if toDepth - fromDepth < 32 then return wrap (c <<< (toDepth - fromDepth))
    else .error .range
  else
    if fromDepth - toDepth < 32 then return c >>> (fromDepth - toDepth)
    else .error .range

/-! ## Common prefixes -/

def bitLen (n : Nat) : Nat := if n = 0 then 0 else n.log2 + 1

/-- How many low digits have to be dropped before two coordinates agree. -/
def spread (a b : Int) : Nat :=
  ((List.range 32).find? fun d : Nat => a >>> d = b >>> d).getD 32

/-- Level of the deepest cell that contains both coordinates. -/
def commonLevel (a b : Int) (depth : Nat) : Nat :=
  if depth < spread a b then 0 else depth - spread a b

/-! ## Laws of positions -/

theorem place_eq_ok_iff {level depth k : Nat} :
    place level depth = .ok k ↔
      level ≤ depth ∧ depth - level < 32 ∧ depth - level = k := by
  unfold place
  split
  · simp only [reduceCtorEq, false_iff]
    omega
  · split
    · simp only [reduceCtorEq, false_iff]
      omega
    · simp only [Except.ok.injEq]
      omega

theorem weight_of_lt {k : Nat} (h : k < 31) : weight k = (1 <<< k : Nat) := by
  simp [weight, Nat.ne_of_lt h]

theorem bit_lt_two (c : Int) (k : Nat) : bit c k < 2 := by
  have h := Int.emod_lt_of_pos (c >>> k) (by decide : (0 : Int) < 2)
  have h0 := Int.emod_nonneg (c >>> k) (by decide : (2 : Int) ≠ 0)
  unfold bit
  omega

@[simp] theorem setBit_bit (c : Int) (k : Nat) : setBit c k (bit c k) = c := by
  simp [setBit]

end MeshCurve.Coord
