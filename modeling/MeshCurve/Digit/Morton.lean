import MeshCurve.Digit.Coord

/-!
# Morton ids

The Morton id of an anchor lists its cube ids, one digit of `dim` bits per level.
Decoding writes these digits back on all axes, level by level: on an axis the digit of
level `l` is bit `dim * (level - l) + axis` of the id.
-/

namespace MeshCurve.Morton

def encodeFrom (anchor : List Int) (depth : Nat) : (levels : List Nat) → (id : Nat) →
    Except Fault Nat
  | [], id => return id
  | l :: levels, id => do
    let cube ← Coord.cubeId anchor l depth
    encodeFrom anchor depth levels (wrapWord (id <<< anchor.length) + cube)

def encode (anchor : List Int) (level depth : Nat) : Except Fault Nat :=
  encodeFrom anchor depth (List.range' 1 level) 0

/-- Writes the digit of level `l` on every axis of an anchor. -/
def writeCube (id level depth l : Nat) (anchor : List Int) : Except Fault (List Int) :=
  let shift := anchor.length * (level - l)
  if shift < 64 then
    let cube := id >>> shift % (1 <<< anchor.length)
    anchor.zipIdx.mapM fun c => Coord.withDigit c.1 l depth (cube >>> c.2 % 2)
  else .error .range

def writeFrom (id level depth : Nat) : (levels : List Nat) → (anchor : List Int) →
    Except Fault (List Int)
  | [], anchor => return anchor
  | l :: levels, anchor => do
    let anchor ← writeCube id level depth l anchor
    writeFrom id level depth levels anchor

/-- Overwrites an anchor with that of the cell number `id` at `level`. -/
def overwrite (anchor : List Int) (id level depth : Nat) : Except Fault (List Int) :=
  if anchor.length < 64 then
    writeFrom id level depth (List.range' 1 level) (anchor.map fun _ => 0)
  else .error .range

def decode (id dim level depth : Nat) : Except Fault (List Int) :=
  overwrite (List.replicate dim 0) id level depth

/-! ## Laws -/

theorem encodeFrom_append (anchor : List Int) (depth l : Nat) (levels : List Nat) (id : Nat) :
    encodeFrom anchor depth (levels ++ [l]) id = (do
      let id ← encodeFrom anchor depth levels id
      let cube ← Coord.cubeId anchor l depth
      return wrapWord (id <<< anchor.length) + cube) := by
  induction levels generalizing id with
  | nil => rfl
  | cons m levels ih =>
      rw [List.cons_append, encodeFrom, encodeFrom, bind_assoc]
      congr 1
      funext cube
      exact ih _

/-- The digit of the last level comes last. -/
theorem encode_succ (anchor : List Int) (level depth : Nat) :
    encode anchor (level + 1) depth = (do
      let id ← encode anchor level depth
      let cube ← Coord.cubeId anchor (level + 1) depth
      return wrapWord (id <<< anchor.length) + cube) := by
  rw [encode, List.range'_concat, encodeFrom_append, Nat.one_mul, Nat.add_comm 1]
  rfl

end MeshCurve.Morton
