import MeshCurve.Digit.Morton
import MeshCurve.Proofs.Digit.Cube

/-!
# Morton ids and anchors

An id and an anchor hold the same cubes, one for each level: the id behind one another, the anchor
at one position each.  `number` puts the cubes of an anchor together and `anchorOf` writes those of
an id, up to a level.  Each undoes the other, but for the digits finer than the level.
-/

namespace MeshCurve.Morton

open Coord (cubeAt stamp clearBelow Aligned)

variable {anchor buffer : List Int} {id dim cube level depth k l : Nat}

/-! ## Numbers of anchors -/

/-- The cubes of the first levels behind one another. -/
def number (anchor : List Int) (depth : Nat) : (level : Nat) → Nat
  | 0 => 0
  | level + 1 =>
    2 ^ anchor.length * number anchor depth level + cubeAt anchor (depth - (level + 1))

theorem number_lt (anchor : List Int) (depth level : Nat) :
    number anchor depth level < 2 ^ (anchor.length * level) := by
  induction level with
  | zero => simp [number]
  | succ level ih =>
      have cube := Coord.cubeAt_lt (k := depth - (level + 1)) anchor
      calc number anchor depth (level + 1)
          < 2 ^ anchor.length * (number anchor depth level + 1) := by
            rw [number, Nat.mul_succ]
            omega
        _ ≤ 2 ^ anchor.length * 2 ^ (anchor.length * level) := Nat.mul_le_mul_left _ ih
        _ = 2 ^ (anchor.length * (level + 1)) := by rw [← pow_add, Nat.mul_succ, Nat.add_comm]

/-- The number of a coarser level comes first in that of a finer one. -/
theorem number_div (anchor : List Int) (depth level k : Nat) :
    number anchor depth (level + k) / (2 ^ anchor.length) ^ k = number anchor depth level := by
  induction k with
  | zero => rw [pow_zero, Nat.div_one, Nat.add_zero]
  | succ k ih =>
      rw [pow_succ', ← Nat.div_div_eq_div_mul, ← Nat.add_assoc, number,
        Nat.mul_add_div (Nat.two_pow_pos _), Nat.div_eq_of_lt (Coord.cubeAt_lt anchor _),
        Nat.add_zero, ih]

/-- Below the level of a cell its anchor has no digits but zeros. -/
theorem number_mul (hk : level + k ≤ depth) (h : ∀ c ∈ anchor, Aligned c (depth - level)) :
    number anchor depth (level + k) =
      number anchor depth level * (2 ^ anchor.length) ^ k := by
  induction k with
  | zero => rw [pow_zero, Nat.mul_one, Nat.add_zero]
  | succ k ih =>
      have finer : depth - (level + k + 1) + 1 ≤ depth - level := by omega
      rw [← Nat.add_assoc, number, ih (by omega),
        Coord.cubeAt_eq_zero fun c hc => (h c hc).of_le finer, pow_succ']
      ring

theorem encode_eq (hd : depth ≤ 30) (hl : level ≤ depth) (ha : anchor.length ≤ 8)
    (room : anchor.length * level ≤ 64) :
    encode anchor level depth = .ok (number anchor depth level) := by
  induction level with
  | zero => rfl
  | succ level ih =>
      have shorter : anchor.length * level ≤ anchor.length * (level + 1) :=
        Nat.mul_le_mul_left _ (Nat.le_succ level)
      have fits : 2 ^ anchor.length * number anchor depth level < wordBound := by
        calc 2 ^ anchor.length * number anchor depth level
            ≤ number anchor depth (level + 1) := Nat.le_add_right _ _
          _ < 2 ^ (anchor.length * (level + 1)) := number_lt anchor depth (level + 1)
          _ ≤ 2 ^ 64 := Nat.pow_le_pow_right Nat.two_pos room
      rw [encode_succ, ih (Nat.le_of_succ_le hl) (shorter.trans room), ok_bind,
        Coord.cubeId_eq hd (Nat.succ_pos level) hl ha, ok_bind, pure_eq_ok, Nat.shiftLeft_eq,
        Nat.mul_comm, wrapWord_of_lt fits]
      rfl

/-! ## Anchors of numbers -/

/-- The anchor with the cubes of `id`, the coarsest of which is written first. -/
def anchorOf (dim depth : Nat) : (level id : Nat) → List Int
  | 0, _ => List.replicate dim 0
  | level + 1, id =>
    stamp (id % 2 ^ dim) (depth - (level + 1)) (anchorOf dim depth level (id >>> dim))

@[simp] theorem length_anchorOf (dim depth level id : Nat) :
    (anchorOf dim depth level id).length = dim := by
  induction level generalizing id with
  | zero => exact List.length_replicate
  | succ level ih => rw [anchorOf, Coord.length_stamp, ih]

theorem writeCube_eq (hd : depth ≤ 30) (hl : l ≤ depth) (fits : anchor.length * (level - l) < 64) :
    writeCube id level depth l anchor =
      .ok (stamp (id >>> (anchor.length * (level - l)) % 2 ^ anchor.length) (depth - l)
        anchor) := by
  rw [writeCube]
  simp only [if_pos fits, Nat.one_shiftLeft]
  rw [mapM_eq_ok fun c _ => Coord.withDigit_eq hd hl c.1 (Coord.bit_of_cube_lt _ c.2), stamp,
    List.mapIdx_eq_zipIdx_map]

theorem writeFrom_append (id level depth l : Nat) (levels : List Nat) (anchor : List Int) :
    writeFrom id level depth (levels ++ [l]) anchor = (do
      let anchor ← writeFrom id level depth levels anchor
      writeCube id level depth l anchor) := by
  induction levels generalizing anchor with
  | nil => exact bind_pure (writeCube id level depth l anchor)
  | cons m levels ih =>
      rw [List.cons_append, writeFrom, writeFrom, bind_assoc]
      congr 1
      funext anchor
      exact ih anchor

/-- After `k` of the levels the anchor holds the cubes that come first in the id. -/
theorem writeFrom_eq (hd : depth ≤ 30) (hl : level ≤ depth) (h1 : 1 ≤ dim) (room : dim * level ≤ 64)
    (hk : k ≤ level) :
    writeFrom id level depth (List.range' 1 k) (List.replicate dim 0) =
      .ok (anchorOf dim depth k (id >>> (dim * (level - k)))) := by
  induction k with
  | zero => rfl
  | succ k ih =>
      have last : List.range' 1 (k + 1) = List.range' 1 k ++ [k + 1] := by
        rw [List.range'_concat, Nat.one_mul, Nat.add_comm 1]
      have cubes : dim * (level - k) = dim * (level - (k + 1)) + dim := by
        rw [← Nat.mul_succ, show (level - (k + 1)).succ = level - k by omega]
      have fits : dim * (level - (k + 1)) < 64 := by
        have below : dim * (level - k) ≤ dim * level := Nat.mul_le_mul_left _ (Nat.sub_le _ _)
        omega
      rw [last, writeFrom_append, ih (Nat.le_of_succ_le hk), ok_bind,
        writeCube_eq hd (hk.trans hl) (by rwa [length_anchorOf]), length_anchorOf, anchorOf, cubes,
        Nat.shiftRight_add]

/-- What the buffer held before leaves no trace. -/
theorem overwrite_eq (hd : depth ≤ 30) (hl : level ≤ depth) (h1 : 1 ≤ buffer.length)
    (h8 : buffer.length ≤ 8) (room : buffer.length * level ≤ 64) :
    overwrite buffer id level depth = .ok (anchorOf buffer.length depth level id) := by
  rw [overwrite, if_pos (by omega), List.map_const', writeFrom_eq hd hl h1 room le_rfl,
    Nat.sub_self, Nat.mul_zero, Nat.shiftRight_zero]

/-! ## There and back -/

theorem anchorOf_number (hd : depth ≤ 30) (hl : level ≤ depth)
    (ha : ∀ c ∈ anchor, 0 ≤ c ∧ c < 2 ^ depth) :
    anchorOf anchor.length depth level (number anchor depth level) =
      anchor.map (clearBelow · (depth - level)) := by
  induction level with
  | zero =>
      have none : anchor.map (clearBelow · depth) = anchor.map fun _ => 0 := by
        refine List.map_congr_left fun c hc => ?_
        rw [Coord.clearBelow_eq, (Coord.div_eq_zero_iff c depth).mpr (ha c hc), zero_mul]
      rw [anchorOf, Nat.sub_zero, none, List.map_const']
  | succ level ih =>
      have position : depth - level = depth - (level + 1) + 1 := by omega
      have cube := Coord.cubeAt_lt (k := depth - (level + 1)) anchor
      have last : number anchor depth (level + 1) % 2 ^ anchor.length =
          cubeAt anchor (depth - (level + 1)) := by
        rw [number, Nat.mul_add_mod, Nat.mod_eq_of_lt cube]
      have before : number anchor depth (level + 1) >>> anchor.length =
          number anchor depth level := by
        rw [number, Nat.shiftRight_eq_div_pow, Nat.mul_add_div (Nat.two_pow_pos _),
          Nat.div_eq_of_lt cube, Nat.add_zero]
      rw [anchorOf, last, before, ih (Nat.le_of_succ_le hl), position, Coord.stamp_cubeAt_map]
      exact List.map_congr_left fun c _ => Coord.setBit_clearBelow (by omega) c

theorem number_stamp (hd : depth ≤ 30) (hk : k < depth - level) (cube : Nat) (anchor : List Int) :
    number (stamp cube k anchor) depth level = number anchor depth level := by
  induction level with
  | zero => rfl
  | succ level ih =>
      rw [number, number, ih (by omega), Coord.length_stamp,
        Coord.cubeAt_stamp_of_lt (by omega) hk]

theorem number_anchorOf (hd : depth ≤ 30) (hl : level ≤ depth) (h : id < 2 ^ (dim * level)) :
    number (anchorOf dim depth level id) depth level = id := by
  induction level generalizing id with
  | zero =>
      rw [Nat.mul_zero, pow_zero, Nat.lt_one_iff] at h
      rw [h]
      rfl
  | succ level ih =>
      have before : id >>> dim < 2 ^ (dim * level) := by
        rw [Nat.shiftRight_eq_div_pow]
        exact Nat.div_lt_of_lt_mul (by rwa [← pow_add, Nat.add_comm, ← Nat.mul_succ])
      rw [anchorOf, number, number_stamp hd (by omega), ih (Nat.le_of_succ_le hl) before,
        Coord.length_stamp, length_anchorOf, Coord.cubeAt_stamp (by omega), length_anchorOf,
        Nat.mod_mod, Nat.shiftRight_eq_div_pow, Nat.div_add_mod]

theorem mem_anchorOf (hd : depth ≤ 30) (hl : level ≤ depth) :
    ∀ c ∈ anchorOf dim depth level id, Aligned c (depth - level) ∧ 0 ≤ c ∧ c < 2 ^ depth := by
  induction level generalizing id with
  | zero =>
      intro c hc
      obtain rfl := List.eq_of_mem_replicate hc
      exact ⟨Coord.aligned_zero _, le_rfl, Coord.two_pow_pos depth⟩
  | succ level ih =>
      refine Coord.forall_mem_stamp fun c hc b hb => ?_
      obtain ⟨coarse, within⟩ := ih (Nat.le_of_succ_le hl) c hc
      rw [show depth - level = depth - (level + 1) + 1 by omega] at coarse
      exact ⟨coarse.setBit_fine (by omega) hb,
        (Coord.setBit_within_iff (by omega) (by omega) hb).mpr within⟩

/-- Encoding keeps what cutting to the level keeps, and decoding puts it into any buffer; the other
way round nothing is lost. -/
theorem decode_inverts_encode (h1 : 1 ≤ dim) (h8 : dim ≤ 8) (hd : depth ≤ 30) (hl : level ≤ depth)
    (room : dim * level ≤ 64) :
    (∀ anchor : List Int, anchor.length = dim → (∀ c ∈ anchor, 0 ≤ c ∧ c < 2 ^ depth) →
      ∃ id cut, encode anchor level depth = .ok id ∧ id < 2 ^ (dim * level) ∧
        anchor.mapM (Coord.cutToLevel · level depth) = .ok cut ∧
        ∀ buffer : List Int, buffer.length = dim → overwrite buffer id level depth = .ok cut) ∧
    ∀ id < 2 ^ (dim * level), ∃ anchor : List Int, anchor.length = dim ∧
      (∀ buffer : List Int, buffer.length = dim → overwrite buffer id level depth = .ok anchor) ∧
      (∀ c ∈ anchor, Coord.isAligned c level depth = .ok true ∧ 0 ≤ c ∧ c < 2 ^ depth) ∧
      encode anchor level depth = .ok id := by
  constructor
  · rintro anchor rfl within
    refine ⟨_, _, encode_eq hd hl h8 room, number_lt anchor depth level,
      mapM_eq_ok fun c _ => Coord.cutToLevel_eq hd hl c, fun buffer same => ?_⟩
    rw [← same] at h1 h8 room
    rw [overwrite_eq hd hl h1 h8 room, same, anchorOf_number hd hl within]
  · intro id hid
    refine ⟨anchorOf dim depth level id, length_anchorOf .., fun buffer same => ?_, fun c hc => ?_,
      ?_⟩
    · subst same
      exact overwrite_eq hd hl h1 h8 room
    · obtain ⟨aligned, within⟩ := mem_anchorOf hd hl c hc
      exact ⟨(Coord.isAligned_decides hd hl).eq_true aligned.2, within⟩
    · have length := length_anchorOf dim depth level id
      rw [encode_eq hd hl (by rwa [length]) (by rwa [length]), number_anchorOf hd hl hid]

/-- The ids of eight axes at level 8 fill a word. -/
theorem decode_inverts_encode_full :
    (∃ id cut, encode (List.replicate 8 (2 ^ 30 - 1)) 8 30 = .ok id ∧ id < 2 ^ (8 * 8) ∧
      (List.replicate 8 (2 ^ 30 - 1)).mapM (Coord.cutToLevel · 8 30) = .ok cut ∧
      ∀ buffer : List Int, buffer.length = 8 → overwrite buffer id 8 30 = .ok cut) ∧
    ∃ anchor : List Int, anchor.length = 8 ∧
      (∀ buffer : List Int, buffer.length = 8 →
        overwrite buffer (2 ^ 64 - 1) 8 30 = .ok anchor) ∧
      (∀ c ∈ anchor, Coord.isAligned c 8 30 = .ok true ∧ 0 ≤ c ∧ c < 2 ^ 30) ∧
      encode anchor 8 30 = .ok (2 ^ 64 - 1) := by
  have laws := @decode_inverts_encode 8 8 30 (by decide) (by decide) (by decide) (by decide)
    (by decide)
  exact ⟨laws.1 _ List.length_replicate (by simp), laws.2 _ (by decide)⟩

end MeshCurve.Morton
