import MeshCurve.Proofs.Extent
import MeshCurve.Proofs.Shapes

/-!
# Ids outside the root

An id records the way down from the topmost ancestor, but not which element that is.  An
element outside the root therefore has the ids of one inside, its shadow, unless they
count past the last id of the root as those of lines do.
-/

namespace MeshCurve.Element

variable {E : Type} [Element E]

/-- `e` has the ids that number `i` of level `l` has. -/
def Numbered (e : E) (l i : Nat) : Prop :=
  ∀ target ≤ finest E, linearId e target = .ok (idAt (branching E) l i target)

/-- The ids of `e` are past those of the root. -/
def PastRoot (e : E) : Prop :=
  ∀ target ≤ finest E, ∃ id, linearId e target = .ok id ∧ branching E ^ target ≤ id

/-- What a shape has to prove about the ids of its elements, wherever they are. -/
class LawfulIds (E : Type) [Element E] : Prop extends LawfulNumbering E where
  ids_of_valid {e : E} {l : Nat} : Valid e → level e = .ok l →
    (∃ i < branching E ^ l, Numbered e l i) ∨ PastRoot e

export LawfulIds (ids_of_valid)

/-- `s` is inside the root and cannot be told from `e` by level and ids. -/
structure Shadow (e s : E) : Prop where
  inRoot : InRoot s
  level_eq : level e = level s
  linearId_eq : ∀ target ≤ finest E, linearId e target = linearId s target

theorem Shadow.refl {e : E} (h : InRoot e) : Shadow e e := ⟨h, rfl, fun _ _ => rfl⟩

section

variable [LawfulNumbering E] {a b c e s s' : E}

/-- An element inside the root is its own shadow. -/
theorem Shadow.eq (h : Shadow e s) (he : InRoot e) : s = e := by
  obtain ⟨l, i, de⟩ := inRoot_iff.mp he
  obtain ⟨m, j, ds⟩ := inRoot_iff.mp h.inRoot
  have levels := h.level_eq
  rw [de.level_of_root, ds.level_of_root] at levels
  obtain rfl := Except.ok.inj levels
  have ids := h.linearId_eq l de.le_finest
  rw [linearId_of_descends de de.le_finest, linearId_of_descends ds de.le_finest, idAt_self,
    idAt_self] at ids
  obtain rfl := Except.ok.inj ids
  exact ds.unique de

theorem Shadow.not_pastRoot (h : Shadow e s) : ¬ PastRoot e := by
  intro past
  obtain ⟨l, i, ds⟩ := inRoot_iff.mp h.inRoot
  obtain ⟨id, hid, outside⟩ := past l ds.le_finest
  rw [h.linearId_eq l ds.le_finest, linearId_of_descends ds ds.le_finest, idAt_self] at hid
  obtain rfl := Except.ok.inj hid
  exact Nat.not_lt.mpr outside ds.lt

theorem compare_of_shadows (ha : Shadow a s) (hb : Shadow b s') :
    Element.compare a b = Element.compare s s' := by
  obtain ⟨l, i, ds⟩ := inRoot_iff.mp ha.inRoot
  obtain ⟨m, j, ds'⟩ := inRoot_iff.mp hb.inRoot
  have fine : max l m ≤ finest E := Nat.max_le.mpr ⟨ds.le_finest, ds'.le_finest⟩
  rw [Element.compare, Element.compare, ha.level_eq, hb.level_eq, ds.level_of_root,
    ds'.level_of_root]
  simp only [ok_bind, ha.linearId_eq _ fine, hb.linearId_eq _ fine]

theorem compare_of_shadow (h : Shadow e s) (hc : InRoot c) :
    Element.compare c e = Element.compare c s := compare_of_shadows (.refl hc) h

end

theorem compare_of_pastRoot [LawfulNumbering E] {c e : E} {l : Nat} (h : PastRoot e)
    (hl : level e = .ok l) (fine : l ≤ finest E) (hc : InRoot c) :
    Element.compare c e = .ok .lt := by
  obtain ⟨m, j, dc⟩ := inRoot_iff.mp hc
  have fine' : max m l ≤ finest E := Nat.max_le.mpr ⟨dc.le_finest, fine⟩
  obtain ⟨id, hid, past⟩ := h _ fine'
  have small : idAt (branching E) m j (max m l) < id :=
    (idAt_lt (branching_pos E) dc.lt).trans_le past
  rw [Element.compare, dc.level_of_root, hl, ok_bind, ok_bind, linearId_of_descends dc fine', hid,
    ok_bind, ok_bind, Nat.compare_eq_lt.mpr small, pure_eq_ok]
  rfl

section

variable [LawfulIds E]

theorem exists_shadow {e : E} (he : Valid e) : (∃ s, Shadow e s) ∨ PastRoot e := by
  obtain ⟨l, fine, hl⟩ := level_of_valid he
  rcases ids_of_valid he hl with ⟨i, hi, same⟩ | past
  · obtain ⟨s, hs⟩ := exists_descends_root fine hi
    refine .inl ⟨s, hs.inRoot, hl.trans hs.level_of_root.symm, ?_⟩
    intro target ht
    rw [same target ht, linearId_of_descends hs ht]
  · exact .inr past

theorem not_pastRoot {e : E} (he : InRoot e) : ¬ PastRoot e := (Shadow.refl he).not_pastRoot

end

end MeshCurve.Element

namespace MeshCurve

open Element

/-! ## Shapes whose ids wrap -/

theorem Quad.numbered_of_valid {e : Quad} {l : Nat} (he : Element.Valid e)
    (hl : Element.level e = .ok l) : ∃ i < branching Quad ^ l, Numbered e l i := by
  obtain ⟨r, i, hr, top, down⟩ := exists_root_of_level he hl
  refine ⟨i, down.lt, fun target ht => (Quad.linearId_eq he ht).trans ?_⟩
  exact congrArg Except.ok (Box.number_eq_idAt hr (Except.ok.inj top) down ht)

instance : LawfulIds Quad where
  ids_of_valid he hl := .inl (Quad.numbered_of_valid he hl)

theorem Kuhn.numbered_of_valid {K : Type} [Kuhn K] [DecidableEq K] [Element K] [KuhnElement K]
    [LawfulKuhn K] {e : K} {l : Nat} (he : Element.Valid e) (hl : Element.level e = .ok l) :
    ∃ i < branching K ^ l, Numbered e l i := by
  obtain ⟨r, i, hr, top, down⟩ := exists_root_of_level he hl
  refine ⟨i, down.lt, ?_⟩
  intro target ht
  rw [finest_eq] at ht
  rw [KuhnElement.level_eq] at top
  rw [KuhnElement.linearId_eq, branching_eq]
  exact linearId_eq ((KuhnElement.valid_iff r).mp hr) (Except.ok.inj top) down ht

instance : LawfulIds Triangle where
  ids_of_valid he hl := .inl (Kuhn.numbered_of_valid he hl)

instance : LawfulIds Tet where
  ids_of_valid he hl := .inl (Kuhn.numbered_of_valid he hl)

/-! ## Lines -/

namespace Line

variable {e : Line} {target : Nat}

theorem linearId_eq_toWord (ht : target ≤ depth) :
    e.linearId target = .ok (toWord (e.x / 2 ^ (depth - target))) := by
  rw [linearId, require_of_true ht, ok_bind, Int.shiftRight_eq_div_pow, pure_eq_ok]
  push_cast
  rfl

/-- Whatever its sign, a number outside the root is far from the ids of the root when read
as a word. -/
theorem le_toWord {n : Nat} {y : Int} (hn : n ≤ 0x40000000) (lower : -0x80000000 ≤ y)
    (outside : y < 0 ∨ n ≤ y) (upper : y < 0x80000000) : n ≤ toWord y := by
  unfold toWord wordBound
  omega

theorem pastRoot_of_not_inside (he : e.Valid) (outside : ¬ e.IsInsideRoot) : PastRoot e := by
  intro target ht
  have ht : target ≤ depth := ht
  refine ⟨_, linearId_eq_toWord ht, ?_⟩
  obtain ⟨lower, upper⟩ : IsCoordinate e.x := he.2.1
  have positive := Coord.two_pow_pos (depth - target)
  have whole : (2 : Int) ^ target * 2 ^ (depth - target) = 0x40000000 :=
    (Coord.two_pow_eq_mul ht).symm
  have small : 2 ^ target ≤ 2 ^ depth := Nat.pow_le_pow_right Nat.two_pos ht
  apply le_toWord small
  · rw [Int.le_ediv_iff_mul_le positive]
    nlinarith
  · rcases Int.lt_or_le e.x 0 with negative | nonneg
    · exact .inl (Int.ediv_neg_of_neg_of_pos negative positive)
    · right
      have beyond : (0x40000000 : Int) ≤ e.x := not_lt.mp fun near => outside ⟨nonneg, near⟩
      rw [Int.le_ediv_iff_mul_le positive]
      push_cast
      omega
  · rw [Int.ediv_lt_iff_lt_mul positive]
    nlinarith

/-- The line that starts at the same place of the root. -/
def wrapped (e : Line) : Line := ⟨e.x % 2 ^ depth, e.level⟩

theorem inRoot_wrapped (he : e.Valid) : InRoot e.wrapped := by
  have lower := Int.emod_nonneg e.x (Coord.two_pow_pos depth).ne'
  have upper := Int.emod_lt_of_pos e.x (Coord.two_pow_pos depth)
  have bound : (2 : Int) ^ depth = 0x40000000 := rfl
  have divides : (2 : Int) ^ (depth - e.level) ∣ 2 ^ depth := pow_dvd_pow 2 (Nat.sub_le _ _)
  have aligned := he.aligned.2
  rw [Coord.residue_eq] at aligned
  refine ⟨⟨he.1, ⟨?_, ?_⟩, ?_⟩, ?_⟩
  · change (-0x80000000 : Int) ≤ e.x % 2 ^ depth
    omega
  · change e.x % 2 ^ depth < 0x80000000
    omega
  · change Coord.residue (e.x % 2 ^ depth) (depth - e.level) = 0
    rw [Coord.residue_eq, Int.emod_emod_of_dvd _ divides, aligned]
  · exact congrArg Except.ok (decide_eq_true ⟨lower, upper⟩)

theorem div_wrapped (ht : target ≤ depth) :
    e.x / 2 ^ (depth - target) % 2 ^ target = e.wrapped.x / 2 ^ (depth - target) % 2 ^ target := by
  have split : e.x = e.wrapped.x + 2 ^ target * (e.x / 2 ^ depth) * 2 ^ (depth - target) := by
    have division : e.wrapped.x + 2 ^ depth * (e.x / 2 ^ depth) = e.x :=
      Int.emod_add_mul_ediv e.x (2 ^ depth)
    rw [Int.mul_right_comm, ← Coord.two_pow_eq_mul ht, division]
  conv_lhs => rw [split]
  rw [Int.add_mul_ediv_right _ _ (Coord.two_pow_pos _).ne', Int.add_mul_emod_self_left]

theorem toWord_mod (y : Int) (ht : target ≤ 64) :
    ((toWord y % 2 ^ target : Nat) : Int) = y % (2 ^ target : Nat) := by
  have nonneg : 0 ≤ y % (wordBound : Nat) := Int.emod_nonneg y (by decide)
  have divides : 2 ^ target ∣ wordBound := pow_dvd_pow 2 ht
  rw [toWord, Int.natCast_emod, Int.toNat_of_nonneg nonneg,
    Int.emod_emod_of_dvd _ (Int.natCast_dvd_natCast.mpr divides)]

/-- The last digits of the ids are those of a number of the level. -/
theorem exists_wrapped_ids (he : e.Valid) : ∃ m < 2 ^ e.level, ∀ target ≤ depth, ∃ id,
    e.linearId target = .ok id ∧ id % 2 ^ target = idAt 2 e.level m target := by
  obtain ⟨l, m, h⟩ := Element.inRoot_iff.mp (inRoot_wrapped he)
  obtain rfl : e.level = l := Except.ok.inj h.level_of_root
  refine ⟨m, h.lt, ?_⟩
  intro target ht
  refine ⟨_, linearId_eq_toWord ht, ?_⟩
  have small : idAt 2 e.level m target < 2 ^ target := idAt_lt Nat.two_pos h.lt
  have number := Box.number_eq_idAt Box.valid_root Box.level_root h ht
  have inside : e.wrapped.x / 2 ^ (depth - target) = (idAt 2 e.level m target : Nat) := by
    rw [← number_eq_div (Box.within_of_descends h _ List.mem_cons_self) ht]
    exact congrArg Nat.cast number
  have same := toWord_mod (e.x / 2 ^ (depth - target)) (ht.trans (by decide : depth ≤ 64))
  rw [Nat.cast_pow, Nat.cast_ofNat, div_wrapped ht, inside] at same
  rw [← Nat.mod_eq_of_lt small]
  exact_mod_cast same

instance : LawfulIds Line where
  ids_of_valid {e l} he hl := by
    by_cases inside : e.IsInsideRoot
    · have within : InRoot e := ⟨he, congrArg _ (decide_eq_true inside)⟩
      obtain ⟨m, i, h⟩ := Element.inRoot_iff.mp within
      obtain rfl := Except.ok.inj (hl.symm.trans h.level_of_root)
      exact .inl ⟨i, h.lt, fun _ => linearId_of_descends h⟩
    · exact .inr (pastRoot_of_not_inside he inside)

end Line

/-! ## Prisms -/

namespace Prism

open Radix

/-- Interleaving keeps no more digits of the line than the level has. -/
theorem numbered_of_valid {e : Prism} {l : Nat} (he : Element.Valid e)
    (hl : Element.level e = .ok l) : ∃ i < branching Prism ^ l, Numbered e l i := by
  cases (Valid.level_eq he).symm.trans hl
  obtain ⟨i, _, idsT⟩ := Kuhn.numbered_of_valid (Valid.tri he) rfl
  obtain ⟨m, _, idsN⟩ := Line.exists_wrapped_ids (Valid.line he)
  rw [← he.1] at idsN
  refine ⟨weave 4 2 e.tri.level i m, weave_lt (by decide) (by decide) _ _ _, ?_⟩
  intro target ht
  have ht : target ≤ depth := ht
  have bound : target ≤ 21 := ht
  have idT : Kuhn.linearId e.tri target = .ok (idAt 4 e.tri.level i target) :=
    idsT target (show target ≤ 29 by omega)
  obtain ⟨n, idN, digits⟩ := idsN target (show target ≤ 30 by omega)
  change e.linearId target = .ok (idAt (4 * 2) e.tri.level _ target)
  rw [linearId, require_of_true ht, ok_bind, idT, ok_bind, idN, ok_bind,
    interleave_eq (by decide) (by decide) (by decide) (pow_small ht), ← weave_mod, digits,
    weave_idAt (by decide) (by decide)]

instance : LawfulIds Prism where
  ids_of_valid he hl := .inl (numbered_of_valid he hl)

end Prism

/-! ## Every shape -/

instance instLawfulIdsCarrier : (s : Shape) → LawfulIds s.Carrier
  | .line => inferInstanceAs (LawfulIds Line)
  | .quad => inferInstanceAs (LawfulIds Quad)
  | .triangle => inferInstanceAs (LawfulIds Triangle)
  | .tet => inferInstanceAs (LawfulIds Tet)
  | .prism => inferInstanceAs (LawfulIds Prism)

end MeshCurve
