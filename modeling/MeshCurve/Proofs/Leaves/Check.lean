import MeshCurve.Leaves.Check
import MeshCurve.Proofs.Leaves.Complete

/-!
# Checking tilings

Leaves that tile the root pass every test of the check.
-/

namespace MeshCurve.Leaves

open Element

theorem firstDescent?_eq_none_iff {k : Nat} {ns : List Nat} :
    firstDescent? k ns = none ↔ ns.IsChain (· < ·) := by
  induction ns generalizing k with
  | nil => simp [firstDescent?]
  | cons a ns ih =>
      cases ns with
      | nil => simp [firstDescent?]
      | cons b rest =>
          rw [firstDescent?, List.isChain_cons_cons, ← ih (k := k + 1)]
          split
          · next descent => simp [Nat.not_lt.mpr descent]
          · next ascent => simp [Nat.not_le.mp ascent]

variable {E : Type} [Element E] [LawfulNumbering E]

theorem Laid.ids_increase {next f : Nat} {leaves : List E} {ids : List Nat}
    (h : Laid next leaves) (hf : f ≤ finest E) (coarser : ∀ e ∈ leaves, ∃ l ≤ f, level e = .ok l)
    (hids : leaves.mapM (linearId · f) = .ok ids) : ids.IsChain (· < ·) := by
  induction h generalizing ids with
  | nil =>
      cases hids
      exact .nil
  | @cons e next lo hi rest _ he laid ih =>
      obtain ⟨⟨l, hle, hl⟩, later⟩ := List.forall_mem_cons.mp coarser
      obtain ⟨id, hid, start⟩ := he.exists_id hl hle hf
      rw [List.mapM_cons, hid, ok_bind] at hids
      obtain ⟨ids', hids', same⟩ := bind_eq_ok_iff.mp hids
      cases same
      have chain := ih later hids'
      cases laid with
      | nil =>
          cases hids'
          exact .singleton id
      | @cons d _ lo' hi' rest before hd _ =>
          obtain ⟨m, hle', hm⟩ := later d List.mem_cons_self
          obtain ⟨id', hid', start'⟩ := hd.exists_id hm hle' hf
          rw [List.mapM_cons, hid', ok_bind] at hids'
          obtain ⟨_, _, same⟩ := bind_eq_ok_iff.mp hids'
          cases same
          refine List.isChain_cons_cons.mpr ⟨?_, chain⟩
          have room := he.lt
          apply Nat.lt_of_mul_lt_mul_right (a := span E f)
          omega

theorem check_of_tiled {leaves : Leaves E}
    (h : Tiled 0 (branching E ^ finest E) leaves.toList) : leaves.check = .ok (.ok ()) := by
  have inRoot := h.laid.inRoot
  have valid : leaves.toList.find? (fun e => !decide (Valid e)) = none := by
    simpa using fun e he => (inRoot e he).1
  have sorted : leaves.isSorted = .ok true := h.laid.sorted
  obtain ⟨f, hf, top⟩ := exists_maxLevel? (fun e he => (inRoot e he).1) h.ne_nil
  have coarser : ∀ e ∈ leaves.toList, ∃ l ≤ f, level e = .ok l := by
    intro e he
    obtain ⟨l, _, hl⟩ := level_of_valid (inRoot e he).1
    exact ⟨l, level_le_of_maxLevel? top he hl, hl⟩
  have each : ∀ e ∈ leaves.toList, ∃ id, linearId e f = .ok id := by
    intro e he
    obtain ⟨l, i, de⟩ := inRoot_iff.mp (inRoot e he)
    exact ⟨_, linearId_of_descends de hf⟩
  obtain ⟨ids, hids⟩ := exists_mapM_eq_ok each
  have increase := firstDescent?_eq_none_iff (k := 0).mpr (h.laid.ids_increase hf coarser hids)
  have complete := (isComplete_of_inRoot inRoot).eq_true h
  simp only [check, valid, sorted, top, ok_bind, Option.getD_some, hids, increase, complete,
    Bool.not_true, Bool.false_eq_true, if_false, if_true, pure_eq_ok]

end MeshCurve.Leaves
