import MeshCurve.Proofs.Leaves.Accepted
import MeshCurve.Proofs.Validity

/-!
# The check always answers

Whatever the fields of the elements are, the check comes to an end: the test of validity stands
first, and of valid elements all levels and ids can be computed.  The one sum in it, the id at
which the next leaf has to start, stays below a ceiling that fits a word.  Of what the check asks
besides, order and increasing ids, nothing is left to ask of leaves that are complete.
-/

namespace MeshCurve.Element

variable {E : Type} [Element E] {e a b : E} {target f top : Nat}

/-- A count along the ids of a level that starts at or below `top`, and goes on from one valid
element to the next, stays at or below `top`. -/
def Ceiling (E : Type) [Element E] (f top : Nat) : Prop :=
  ∀ ⦃e : E⦄ ⦃l id : Nat⦄, Valid e → level e = .ok l → l ≤ f → linearId e f = .ok id →
    id ≤ top → id + branching E ^ (f - l) ≤ top

/-- Elements that are numbered like those inside the root do not count past its last id. -/
theorem ceiling_of_numbered (hf : f ≤ finest E)
    (numbered : ∀ {e : E} {l : Nat}, Valid e → level e = .ok l →
      ∃ i < branching E ^ l, Numbered e l i) : Ceiling E f (branching E ^ f) := by
  intro e l id he hl hle hid _
  obtain ⟨i, hi, same⟩ := numbered he hl
  cases hid.symm.trans (same f hf)
  rw [idAt_of_ge hle]
  calc i * branching E ^ (f - l) + branching E ^ (f - l)
      = (i + 1) * branching E ^ (f - l) := (Nat.succ_mul _ _).symm
    _ ≤ branching E ^ l * branching E ^ (f - l) := Nat.mul_le_mul_right _ hi
    _ = branching E ^ f := by rw [← pow_add, Nat.add_sub_cancel' hle]

section

variable [LawfulIds E]

theorem exists_linearId (he : Valid e) (ht : target ≤ finest E) :
    ∃ id, linearId e target = .ok id := by
  obtain ⟨l, _, hl⟩ := level_of_valid he
  rcases ids_of_valid he hl with ⟨i, _, same⟩ | past
  · exact ⟨_, same target ht⟩
  · obtain ⟨id, hid, _⟩ := past target ht
    exact ⟨id, hid⟩

theorem exists_compare (ha : Valid a) (hb : Valid b) : ∃ o, Element.compare a b = .ok o := by
  obtain ⟨la, fineA, levelA⟩ := level_of_valid ha
  obtain ⟨lb, fineB, levelB⟩ := level_of_valid hb
  have fine : max la lb ≤ finest E := Nat.max_le.mpr ⟨fineA, fineB⟩
  obtain ⟨ia, idA⟩ := exists_linearId ha fine
  obtain ⟨ib, idB⟩ := exists_linearId hb fine
  refine ⟨(Ord.compare ia ib).then (Ord.compare la lb), ?_⟩
  rw [Element.compare, levelA, ok_bind, levelB, ok_bind, idA, ok_bind, idB, ok_bind, pure_eq_ok]

end

end MeshCurve.Element

namespace MeshCurve

open Element

namespace Line

/-- A negative number is far beyond `top` when read as a word. -/
theorem toWord_add_le {q : Int} {count top : Nat} (fits : top ≤ 0x80000000)
    (lower : -0x80000000 ≤ q) (below : toWord q ≤ top) (room : q + count ≤ top) :
    toWord q + count ≤ top := by
  unfold toWord wordBound at *
  omega

/-- Lines past the end of the root count on, up to where coordinates end. -/
theorem ceiling {f : Nat} (hf : f ≤ depth) : Ceiling Line f (2 ^ (f + 1)) := by
  intro e l id he hl hle hid below
  obtain rfl : e.level = l := Except.ok.inj hl
  cases hid.symm.trans (linearId_eq_toWord hf)
  have positive := Coord.two_pow_pos (depth - f)
  have coarse : (2 : Int) ^ (depth - e.level) = 2 ^ (f - e.level) * 2 ^ (depth - f) := by
    have places : depth - e.level = f - e.level + (depth - f) := by
      unfold depth at *
      omega
    rw [places, pow_add]
  have whole : (0x80000000 : Int) = 2 ^ (f + 1) * 2 ^ (depth - f) := by
    have places : f + 1 + (30 - f) = 31 := by
      have fine : f ≤ 30 := hf
      omega
    change _ = (2 : Int) ^ (f + 1) * 2 ^ (30 - f)
    rw [← pow_add, places]
    rfl
  have narrow : depth - e.level ≤ 31 := (Nat.sub_le _ _).trans (by decide)
  obtain ⟨lower, upper⟩ := he.aligned.bounds narrow
  have cells : e.x = e.x / 2 ^ (depth - f) * 2 ^ (depth - f) := by
    conv_lhs => rw [he.aligned.eq_mul, coarse, ← mul_assoc]
    conv_rhs => rw [he.aligned.eq_mul, coarse, ← mul_assoc, Int.mul_ediv_cancel _ positive.ne']
  refine toWord_add_le (Nat.pow_le_pow_right Nat.two_pos (Nat.succ_le_succ hf)) ?_ below ?_
  · rw [Int.le_ediv_iff_mul_le positive]
    nlinarith
  · rw [cells, coarse, ← Int.add_mul, whole, mul_le_mul_iff_of_pos_right positive] at upper
    exact_mod_cast upper

end Line

/-- Over valid elements of any shape the count stays within a word. -/
theorem exists_ceiling (s : Shape) {f : Nat} (hf : f ≤ finest s.Carrier) :
    ∃ top < wordBound, Ceiling s.Carrier f top := by
  have small : branching s.Carrier ^ f < wordBound :=
    (Nat.pow_le_pow_right (branching_pos _) hf).trans_lt (pow_finest_lt _)
  cases s with
  | line =>
      have fine : f + 1 ≤ 31 := Nat.succ_le_succ hf
      refine ⟨2 ^ (f + 1), ?_, Line.ceiling hf⟩
      exact (Nat.pow_le_pow_right Nat.two_pos fine).trans_lt (by decide)
  | quad => exact ⟨_, small, ceiling_of_numbered hf Quad.numbered_of_valid⟩
  | triangle => exact ⟨_, small, ceiling_of_numbered hf (Kuhn.numbered_of_valid (K := Triangle))⟩
  | tet => exact ⟨_, small, ceiling_of_numbered hf (Kuhn.numbered_of_valid (K := Tet))⟩
  | prism => exact ⟨_, small, ceiling_of_numbered hf Prism.numbered_of_valid⟩

namespace Leaves

variable {E : Type} [Element E] [LawfulIds E] {leaves : Leaves E}

theorem exists_isSortedList {es : List E} (valid : ∀ e ∈ es, Valid e) :
    ∃ sorted, isSortedList es = .ok sorted := by
  induction es with
  | nil => exact ⟨true, rfl⟩
  | cons a es ih =>
      obtain ⟨ha, later⟩ := List.forall_mem_cons.mp valid
      cases es with
      | nil => exact ⟨true, rfl⟩
      | cons b es =>
          obtain ⟨o, order⟩ := exists_compare ha (later b List.mem_cons_self)
          rw [isSortedList, order, ok_bind]
          split
          · exact ih later
          · exact ⟨false, rfl⟩

theorem exists_tilesFrom {f top next : Nat} (ceiling : Ceiling E f top) (small : top < wordBound)
    (hf : f ≤ finest E) {es : List E} (valid : ∀ e ∈ es, Valid e)
    (coarser : ∀ e ∈ es, ∃ l ≤ f, level e = .ok l) (below : next ≤ top) :
    ∃ tiles, tilesFrom f next es = .ok tiles := by
  induction es generalizing next with
  | nil => exact ⟨decide (next = branching E ^ f), by rw [tilesFrom, pow_eq_ok hf]; rfl⟩
  | cons e es ih =>
      obtain ⟨he, valid⟩ := List.forall_mem_cons.mp valid
      obtain ⟨⟨l, hle, hl⟩, coarser⟩ := List.forall_mem_cons.mp coarser
      obtain ⟨id, hid⟩ := exists_linearId he hf
      rw [tilesFrom, hid, ok_bind]
      by_cases here : id = next
      · subst here
        have room := ceiling he hl hle hid below
        rw [if_neg (not_not.mpr rfl), hl, ok_bind, pow_eq_ok ((Nat.sub_le f l).trans hf), ok_bind,
          word_of_lt (room.trans_lt small), ok_bind]
        exact ih valid coarser room
      · rw [if_pos here]
        exact ⟨false, rfl⟩

theorem exists_isComplete (ceilings : ∀ f ≤ finest E, ∃ top < wordBound, Ceiling E f top)
    (valid : ∀ e ∈ leaves.toList, Valid e) : ∃ complete, leaves.isComplete = .ok complete := by
  by_cases some' : leaves.toList = []
  · refine ⟨false, ?_⟩
    rw [isComplete, maxLevel?, levels, some']
    rfl
  · obtain ⟨f, hf, top⟩ := exists_maxLevel? valid some'
    obtain ⟨bound, small, ceiling⟩ := ceilings f hf
    rw [isComplete, top, ok_bind]
    refine exists_tilesFrom ceiling small hf valid ?_ (Nat.zero_le bound)
    intro e he
    obtain ⟨l, _, hl⟩ := level_of_valid (valid e he)
    exact ⟨l, level_le_of_maxLevel? top he hl, hl⟩

theorem exists_check (ceilings : ∀ f ≤ finest E, ∃ top < wordBound, Ceiling E f top) :
    ∃ verdict, leaves.check = .ok verdict := by
  rw [check]
  split
  · exact ⟨_, rfl⟩
  · next none' =>
      have valid : ∀ e ∈ leaves.toList, Valid e := by simpa using none'
      obtain ⟨sorted, hsorted⟩ : ∃ sorted, leaves.isSorted = .ok sorted :=
        exists_isSortedList valid
      obtain ⟨complete, hcomplete⟩ := exists_isComplete ceilings valid
      rw [hsorted, ok_bind]
      split
      · exact ⟨_, rfl⟩
      · obtain ⟨ls, hls, _⟩ := exists_levels valid
        have top : leaves.maxLevel? = .ok ls.max? := by rw [maxLevel?, hls, ok_bind, pure_eq_ok]
        have fine := top_le_finest valid top
        obtain ⟨ids, hids⟩ := exists_mapM_eq_ok fun e he => exists_linearId (valid e he) fine
        simp only [top, hids, hcomplete, ok_bind]
        split
        · exact ⟨_, rfl⟩
        · cases complete with
          | true => exact ⟨.ok (), rfl⟩
          | false => exact ⟨.error .incomplete, rfl⟩

/-- Order and increasing ids are consequences of validity and completeness. -/
theorem check_of_complete [DecidableEq E] (valid : ∀ e ∈ leaves.toList, Valid e)
    (complete : leaves.isComplete = .ok true) : leaves.check = .ok (.ok ()) := by
  obtain ⟨cover, shadows⟩ := exists_cover_of_complete valid complete
  rw [isComplete_eq_of_shadows valid shadows,
    (isComplete_of_inRoot (forall_inRoot_of_shadows shadows)).eq_true_iff] at complete
  rw [check_eq_of_shadows valid shadows]
  exact check_of_tiled complete

end Leaves

/-- Whatever the fields of its elements are, an array can be checked.  Each element can be tested,
the check comes to an end, and it accepts the array if all elements are valid and it is
complete. -/
theorem check_decides (s : Shape) (leaves : Leaves s.Carrier) :
    (∀ e ∈ leaves.toList, Tests (isValid s e) (signedFields s e) (Valid e)) ∧
      (∃ verdict, leaves.check = .ok verdict) ∧
      (leaves.check = .ok (.ok ()) ↔
        (∀ e ∈ leaves.toList, Valid e) ∧ leaves.isComplete = .ok true) := by
  refine ⟨fun e _ => isValid_tests s e, Leaves.exists_check fun f hf => exists_ceiling s hf,
    Leaves.of_check_eq_ok, ?_⟩
  rintro ⟨valid, complete⟩
  exact Leaves.check_of_complete valid complete

end MeshCurve
