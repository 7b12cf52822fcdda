import MeshCurve.Proofs.Digit.Coord
import Mathlib.Data.List.Forall2

/-!
# Cubes of an anchor

The digits of an anchor at one position, packed into one number with axis 0 lowest, say which of
the cubes of that size the anchor lies in.  `cubeAt` reads this number and `stamp` writes it; no
other position above is touched.
-/

namespace MeshCurve

theorem map_mapIdx {α β γ : Type} (f : Nat → α → β) (g : β → γ) (xs : List α) :
    (xs.mapIdx f).map g = xs.mapIdx fun i x => g (f i x) := by
  apply List.ext_getElem? fun i => ?_
  simp [Function.comp_def]

theorem mapIdx_eq_map {α β : Type} (f : α → β) (xs : List α) :
    (xs.mapIdx fun _ x => f x) = xs.map f := by
  apply List.ext_getElem? fun i => ?_
  simp

theorem mapIdx_map {α β γ : Type} (f : α → β) (g : Nat → β → γ) (xs : List α) :
    (xs.map f).mapIdx g = xs.mapIdx fun i x => g i (f x) := by
  apply List.ext_getElem? fun i => ?_
  simp [Function.comp_def]

theorem forall_mem_pair {α : Type} {p : α → Prop} {a b : α} :
    (∀ x ∈ [a, b], p x) ↔ p a ∧ p b := by
  rw [List.forall_mem_cons, List.forall_mem_singleton]

namespace Coord

/-! ## Packed digits -/

theorem ofBits_lt {ds : List Nat} (h : ∀ d ∈ ds, d < 2) : ofBits ds < 2 ^ ds.length := by
  induction ds with
  | nil => simp [ofBits]
  | cons d ds ih =>
      have head := h d (by simp)
      have tail := ih fun x hx => h x (by simp [hx])
      rw [ofBits, List.length_cons, pow_succ]
      omega

private theorem ofBits_cons_shiftRight {d : Nat} (hd : d < 2) (ds : List Nat) (axis : Nat) :
    ofBits (d :: ds) >>> (axis + 1) = ofBits ds >>> axis := by
  rw [Nat.add_comm axis, Nat.shiftRight_add, ofBits]
  congr 1
  simp only [Nat.shiftRight_succ, Nat.shiftRight_zero]
  omega

/-- A cube number is read back axis by axis. -/
theorem mapIdx_ofBits {α β : Type} (f : α → Nat) (g : α → Nat → β) (xs : List α)
    (h : ∀ x ∈ xs, f x < 2) :
    (xs.mapIdx fun axis x => g x (ofBits (xs.map f) >>> axis % 2)) =
      xs.map fun x => g x (f x) := by
  induction xs with
  | nil => rfl
  | cons x xs ih =>
      have head := h x (by simp)
      have tail := ih fun y hy => h y (by simp [hy])
      rw [List.mapIdx_cons, List.map_cons, List.map_cons]
      simp only [ofBits_cons_shiftRight head, tail]
      congr 2
      rw [ofBits, Nat.shiftRight_zero]
      omega

theorem ofBits_mapIdx {α : Type} (n : Nat) (xs : List α) :
    ofBits (xs.mapIdx fun axis _ => n >>> axis % 2) = n % 2 ^ xs.length := by
  induction xs generalizing n with
  | nil => simp [ofBits, Nat.mod_one]
  | cons x xs ih =>
      rw [List.mapIdx_cons, ofBits]
      have later : (fun axis (_ : α) => n >>> (axis + 1) % 2) =
          fun axis _ => (n / 2) >>> axis % 2 := by
        funext axis _
        rw [Nat.add_comm axis, Nat.shiftRight_add, Nat.shiftRight_succ, Nat.shiftRight_zero]
      rw [later, ih, List.length_cons, pow_succ, Nat.mul_comm (2 ^ xs.length), Nat.mod_mul,
        Nat.shiftRight_zero]

/-! ## Reading and writing -/

variable {anchor : List Int} {cube j k : Nat}

def cubeAt (anchor : List Int) (k : Nat) : Nat := ofBits (anchor.map (bit · k))

def stamp (cube k : Nat) (anchor : List Int) : List Int :=
  anchor.mapIdx fun axis c => setBit c k (cube >>> axis % 2)

@[simp] theorem length_stamp (cube k : Nat) (anchor : List Int) :
    (stamp cube k anchor).length = anchor.length := List.length_mapIdx

theorem bit_of_cube_lt (cube axis : Nat) : cube >>> axis % 2 < 2 := Nat.mod_lt _ Nat.two_pos

theorem forall_mem_stamp {p : Int → Prop} (h : ∀ c ∈ anchor, ∀ b < 2, p (setBit c k b)) :
    ∀ c ∈ stamp cube k anchor, p c := by
  intro c hc
  obtain ⟨axis, hx, rfl⟩ := List.mem_mapIdx.mp hc
  exact h _ (List.getElem_mem hx) _ (bit_of_cube_lt cube axis)

/-- What no digit at the position decides holds of all coordinates or of none. -/
theorem forall_mem_stamp_iff {p : Int → Prop} (h : ∀ c, ∀ b < 2, (p (setBit c k b) ↔ p c)) :
    (∀ c ∈ stamp cube k anchor, p c) ↔ ∀ c ∈ anchor, p c := by
  refine ⟨fun all c hc => ?_,
    fun all => forall_mem_stamp fun c hc b hb => (h c b hb).mpr (all c hc)⟩
  obtain ⟨axis, hx, rfl⟩ := List.getElem_of_mem hc
  refine (h _ _ (bit_of_cube_lt cube axis)).mp (all _ ?_)
  exact List.mem_mapIdx.mpr ⟨axis, hx, rfl⟩

theorem cubeAt_lt (anchor : List Int) (k : Nat) : cubeAt anchor k < 2 ^ anchor.length := by
  have digits : ∀ d ∈ anchor.map (bit · k), d < 2 := by
    rw [List.forall_mem_map]
    exact fun c _ => bit_lt_two c k
  simpa [cubeAt] using ofBits_lt digits

theorem cubeAt_eq_zero (h : ∀ c ∈ anchor, Aligned c (k + 1)) : cubeAt anchor k = 0 := by
  induction anchor with
  | nil => rfl
  | cons c anchor ih =>
      obtain ⟨head, tail⟩ := List.forall_mem_cons.mp h
      have later : ofBits (anchor.map (bit · k)) = 0 := ih tail
      rw [cubeAt, List.map_cons, ofBits, head.bit_eq_zero, later]

theorem cubeAt_stamp (hk : k < 31) (cube : Nat) (anchor : List Int) :
    cubeAt (stamp cube k anchor) k = cube % 2 ^ anchor.length := by
  have read : (fun axis c => bit (setBit c k (cube >>> axis % 2)) k) =
      fun axis (_ : Int) => cube >>> axis % 2 := by
    funext axis c
    exact bit_setBit hk c (bit_of_cube_lt cube axis)
  rw [cubeAt, stamp, map_mapIdx, read, ofBits_mapIdx]

theorem cubeAt_stamp_of_lt (hk : k < 31) (hj : k < j) (cube : Nat) (anchor : List Int) :
    cubeAt (stamp cube k anchor) j = cubeAt anchor j := by
  have read : (fun axis c => bit (setBit c k (cube >>> axis % 2)) j) =
      fun (_ : Nat) c => bit c j := by
    funext axis c
    exact bit_setBit_of_lt hk hj c (bit_of_cube_lt cube axis)
  rw [cubeAt, stamp, map_mapIdx, read, mapIdx_eq_map, cubeAt]

theorem stamp_stamp (hk : k < 31) (cube cube' : Nat) (anchor : List Int) :
    stamp cube' k (stamp cube k anchor) = stamp cube' k anchor := by
  rw [stamp, stamp, stamp, List.mapIdx_mapIdx]
  congr 1
  funext axis c
  exact setBit_setBit hk c (bit_of_cube_lt cube axis) _

/-- The cube of an anchor, written to coordinates that are made from its own. -/
theorem stamp_cubeAt_map (k : Nat) (f : Int → Int) (anchor : List Int) :
    stamp (cubeAt anchor k) k (anchor.map f) = anchor.map fun c => setBit (f c) k (bit c k) := by
  rw [stamp, mapIdx_map]
  exact mapIdx_ofBits (bit · k) (fun c => setBit (f c) k) anchor fun c _ => bit_lt_two c k

theorem stamp_cubeAt (k : Nat) (anchor : List Int) : stamp (cubeAt anchor k) k anchor = anchor := by
  have own := stamp_cubeAt_map k id anchor
  simpa using own

theorem map_clearBelow_stamp (hk : k < 31) (hj : k < j) (cube : Nat) (anchor : List Int) :
    (stamp cube k anchor).map (clearBelow · j) = anchor.map (clearBelow · j) := by
  have cut : (fun axis c => clearBelow (setBit c k (cube >>> axis % 2)) j) =
      fun (_ : Nat) c => clearBelow c j := by
    funext axis c
    exact clearBelow_setBit hk hj c (bit_of_cube_lt cube axis)
  rw [stamp, map_mapIdx, cut, mapIdx_eq_map]

theorem stamp_zero (k : Nat) (anchor : List Int) :
    stamp 0 k anchor = anchor.map (setBit · k 0) := by
  have digit (axis : Nat) : 0 >>> axis % 2 = 0 := by simp
  simp only [stamp, digit, mapIdx_eq_map]

/-- The cells of the next level, from their places in the coarse ones. -/
theorem map_div_stamp (hk : k < 31) (cube : Nat) (anchor : List Int) :
    (stamp cube k anchor).map (· / 2 ^ k) =
      (anchor.map (· / 2 ^ (k + 1))).mapIdx fun axis (p : Int) =>
        2 * p + ((cube >>> axis % 2 : Nat) : Int) := by
  rw [stamp, map_mapIdx, mapIdx_map]
  congr 1
  funext axis c
  exact setBit_div_eq hk c _

theorem stamp_zero_of_aligned (h : ∀ c ∈ anchor, Aligned c (k + 1)) :
    stamp 0 k anchor = anchor := by
  rw [stamp_zero]
  exact (List.map_congr_left fun c hc => (h c hc).setBit_zero_eq).trans (List.map_id _)

theorem map_clearBelow_of_aligned (h : ∀ c ∈ anchor, Aligned c k) :
    anchor.map (clearBelow · k) = anchor :=
  (List.map_congr_left fun c hc => (h c hc).clearBelow_eq).trans (List.map_id _)

/-- What was cut off last is put back. -/
theorem setBit_clearBelow (hk : k < 31) (c : Int) :
    setBit (clearBelow c (k + 1)) k (bit c k) = clearBelow c k := by
  have even : clearBelow c (k + 1) / 2 ^ k = 2 * (c / 2 ^ (k + 1)) := by
    rw [clearBelow_eq, pow_succ, ← mul_assoc, mul_right_comm,
      Int.mul_ediv_cancel _ (two_pow_pos k).ne', mul_comm]
  have zero : (bit (clearBelow c (k + 1)) k : Int) = 0 := by
    rw [bit_eq, even, Int.mul_emod_right]
  rw [setBit_eq hk, zero, clearBelow_eq, clearBelow_eq, div_eq c k]
  ring

/-! ## Far corners -/

/-- The last cube is the far one on every axis. -/
theorem stamp_last (k : Nat) (anchor : List Int) :
    stamp (2 ^ anchor.length - 1) k anchor = anchor.map (setBit · k 1) := by
  refine List.ext_getElem (by simp) fun axis h _ => ?_
  have far := Nat.testBit_two_pow_sub_one anchor.length axis
  rw [length_stamp] at h
  rw [decide_eq_true h, Nat.testBit_eq_decide_div_mod_eq, decide_eq_true_iff,
    ← Nat.shiftRight_eq_div_pow] at far
  simp [stamp, far]

/-- Within edges of length `h` from an anchor, the last cells of the next level. -/
theorem stamp_far {h : Int} (hk : k < 31)
    (fine : ∀ c ∈ anchor.map (· + (h - 2 ^ (k + 1))), Aligned c (k + 1)) :
    stamp (2 ^ anchor.length - 1) k (anchor.map (· + (h - 2 ^ (k + 1)))) =
      anchor.map (· + (h - 2 ^ k)) := by
  have last := stamp_last k (anchor.map (· + (h - 2 ^ (k + 1))))
  rw [List.length_map] at last
  rw [last, List.map_map]
  refine List.map_congr_left fun c hc => ?_
  exact (fine _ (List.mem_map_of_mem hc)).setBit_far hk

/-! ## Common digits -/

/-- The finest level up to `top` on which two anchors lie in one cube. -/
def sharedLevel (depth top : Nat) (as bs : List Int) : Nat :=
  ((as.zip bs).map fun (x, y) => commonLevel x y depth).foldl min top

theorem le_foldl_min_iff {l top : Nat} {ls : List Nat} :
    l ≤ ls.foldl min top ↔ l ≤ top ∧ ∀ m ∈ ls, l ≤ m := by
  induction ls generalizing top with
  | nil => simp
  | cons m ls ih => rw [List.foldl_cons, ih, Nat.le_min, List.forall_mem_cons, and_assoc]

variable {as bs : List Int} {depth l top : Nat}

theorem map_clearBelow_congr (same : as.map (clearBelow · j) = bs.map (clearBelow · j))
    (hjk : j ≤ k) : as.map (clearBelow · k) = bs.map (clearBelow · k) := by
  have again (cs : List Int) :
      (cs.map (clearBelow · j)).map (clearBelow · k) = cs.map (clearBelow · k) := by
    rw [List.map_map]
    exact List.map_congr_left fun c _ => clearBelow_clearBelow hjk c
  rw [← again as, same, again bs]

theorem map_clearBelow_eq_iff (sizes : as.length = bs.length) :
    as.map (clearBelow · k) = bs.map (clearBelow · k) ↔
      ∀ p ∈ as.zip bs, clearBelow p.1 k = clearBelow p.2 k := by
  rw [← List.forall₂_eq_eq_eq, List.forall₂_map_left_iff, List.forall₂_map_right_iff,
    List.forall₂_iff_zip]
  exact ⟨fun h p hp => h.2 hp, fun h => ⟨sizes, fun {x y} hp => h (x, y) hp⟩⟩

/-- Within one tree, where at least the digits above the first level agree. -/
theorem le_sharedLevel_iff (hd : depth ≤ 30) (ht : top ≤ depth)
    (tree : as.map (clearBelow · depth) = bs.map (clearBelow · depth)) :
    l ≤ sharedLevel depth top as bs ↔ l ≤ top ∧
      as.map (clearBelow · (depth - l)) = bs.map (clearBelow · (depth - l)) := by
  have sizes : as.length = bs.length := by simpa using congrArg List.length tree
  rw [map_clearBelow_eq_iff sizes] at tree
  rw [sharedLevel, le_foldl_min_iff, List.forall_mem_map, map_clearBelow_eq_iff sizes]
  refine and_congr_right fun hl => forall₂_congr fun p hp => ?_
  exact le_commonLevel_iff hd (hl.trans ht) (tree p hp)

end Coord

end MeshCurve
