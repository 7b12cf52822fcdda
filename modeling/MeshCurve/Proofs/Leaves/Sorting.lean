import MeshCurve.Proofs.Leaves.Complete

/-!
# Sorting

A sorting procedure may compare the leaves in any order, and put two of them that compare
equal in either order.  Curve order ties no leaf inside the root with another one, so that
nothing of this shows: distinct leaves have one sorted arrangement, and every procedure
finds it from every order that they may be given in.
-/

namespace MeshCurve

/-! ## Procedures -/

section

variable {α : Type}

/-- A procedure that arranges a list by a comparison. -/
abbrev Arrangement (α : Type) : Type :=
  (α → α → Except Fault Ordering) → List α → Except Fault (List α)

/-- No element comes before an earlier one. -/
def NonDecreasing (cmp : α → α → Except Fault Ordering) (xs : List α) : Prop :=
  xs.Pairwise fun a b => cmp a b ≠ .ok .gt

/-- What is arranged by a total order does not decrease.  Nothing is said of other comparisons. -/
def Sorts (arrange : Arrangement α) : Prop :=
  ∀ {cmp : α → α → Except Fault Ordering} {xs : List α}, TotallyOrders (· ∈ xs) cmp →
    ∃ ys, arrange cmp xs = .ok ys ∧ ys.Perm xs ∧ NonDecreasing cmp ys

variable {cmp : α → α → Except Fault Ordering} {xs ys : List α}

theorem TotallyOrders.mono {kind kind' : α → Prop} (h : TotallyOrders kind cmp)
    (sub : ∀ a, kind' a → kind a) : TotallyOrders kind' cmp where
  swap ha hb := h.swap (sub _ ha) (sub _ hb)
  eq_iff ha hb := h.eq_iff (sub _ ha) (sub _ hb)
  trans ha hb hc := h.trans (sub _ ha) (sub _ hb) (sub _ hc)

/-- Two that may stand in either order are one. -/
theorem TotallyOrders.antisymm {kind : α → Prop} (h : TotallyOrders kind cmp) {a b : α}
    (ha : kind a) (hb : kind b) (hab : cmp a b ≠ .ok .gt) (hba : cmp b a ≠ .ok .gt) : a = b := by
  obtain ⟨o, ho, back⟩ := h.swap ha hb
  cases o with
  | lt => exact absurd back hba
  | eq => exact (h.eq_iff ha hb).mp ho
  | gt => exact absurd ho hab

theorem NonDecreasing.eq_of_perm (h : TotallyOrders (· ∈ xs) cmp) (hxs : NonDecreasing cmp xs)
    (hys : NonDecreasing cmp ys) (perm : ys.Perm xs) : ys = xs := by
  refine List.Perm.eq_of_pairwise ?_ hys hxs perm
  intro a b ha hb
  exact h.antisymm (perm.mem_iff.mp ha) hb

/-! ## Merging -/

/-- Whether one may stand before the other. -/
def mayPrecede (cmp : α → α → Except Fault Ordering) (a b : α) : Bool :=
  match cmp a b with
  | .ok o => o != .gt
  | .error _ => true

theorem mayPrecede_iff (a b : α) : mayPrecede cmp a b = true ↔ cmp a b ≠ .ok .gt := by
  rw [mayPrecede]
  cases cmp a b with
  | error _ => simp
  | ok o => simp

def merging : Arrangement α := fun cmp xs =>
  if xs.length ≤ 1 then return xs else do
    let _ ← xs.mapM fun a => cmp a a
    return xs.mergeSort (mayPrecede cmp)

theorem pairwise_mergeSort_of_mem {le : α → α → Bool}
    (trans : ∀ a ∈ xs, ∀ b ∈ xs, ∀ c ∈ xs, le a b = true → le b c = true → le a c = true)
    (total : ∀ a ∈ xs, ∀ b ∈ xs, (le a b || le b a) = true) :
    (xs.mergeSort le).Pairwise fun a b => le a b = true := by
  -- the order need not be total beyond the members, so these are sorted as a type of their own
  have within : (xs.attach.mergeSort fun a b => le a.1 b.1).Pairwise fun a b => le a.1 b.1 = true :=
    List.pairwise_mergeSort (fun a b c => trans a.1 a.2 b.1 b.2 c.1 c.2)
      (fun a b => total a.1 a.2 b.1 b.2) _
  have whole : (xs.attach.mergeSort fun a b => le a.1 b.1).map Subtype.val = xs.mergeSort le := by
    have carried := List.map_mergeSort (f := Subtype.val) (l := xs.attach)
      (r := fun a b => le a.1 b.1) (s := le) fun _ _ _ _ => rfl
    rwa [List.attach_map_subtype_val] at carried
  rw [← whole, List.pairwise_map]
  exact within

theorem sorts_merging : Sorts (merging (α := α)) := by
  intro cmp xs h
  by_cases short : xs.length ≤ 1
  · refine ⟨xs, if_pos short, .refl xs, ?_⟩
    match xs, short with
    | [], _ => exact .nil
    | [a], _ => exact List.pairwise_singleton _ a
  · have self : ∀ a ∈ xs, cmp a a = .ok .eq := fun a ha => (h.eq_iff ha ha).mpr rfl
    refine ⟨xs.mergeSort (mayPrecede cmp), ?_, List.mergeSort_perm _ _, ?_⟩
    · rw [merging, if_neg short, mapM_eq_ok self, ok_bind, pure_eq_ok]
    · refine (pairwise_mergeSort_of_mem ?_ ?_).imp fun le => (mayPrecede_iff _ _).mp le
      · intro a ha b hb c hc hab hbc
        rw [mayPrecede_iff] at hab hbc ⊢
        intro after
        obtain ⟨o, ho, back⟩ := h.swap ha hc
        cases ho.symm.trans after
        rcases h.lt_or_gt hc ha hb back with less | greater
        · obtain ⟨o, ho, back⟩ := h.swap hc hb
          cases ho.symm.trans less
          exact hbc back
        · exact hab greater
      · intro a ha b hb
        rw [Bool.or_eq_true, mayPrecede_iff, mayPrecede_iff]
        obtain ⟨o, ho, back⟩ := h.swap ha hb
        rw [ho, back]
        cases o <;> simp

/-- A procedure may as well start from the other end. -/
theorem Sorts.of_reverse {arrange : Arrangement α} (h : Sorts arrange) :
    Sorts fun cmp (xs : List α) => arrange cmp xs.reverse := by
  intro cmp xs total
  have total' : TotallyOrders (· ∈ xs.reverse) cmp := total.mono fun a ha => List.mem_reverse.mp ha
  obtain ⟨ys, ran, perm, sorted⟩ := h total'
  exact ⟨ys, ran, perm.trans xs.reverse_perm, sorted⟩

end

/-! ## Leaves -/

namespace Leaves

open Element

variable {E : Type} [Element E]

/-- Restores curve order by a given procedure. -/
def sortBy (arrange : Arrangement E) (leaves : Leaves E) : Except Fault (Leaves E) := do
  let es ← arrange Element.compare leaves.toList
  return ⟨es⟩

theorem sort_eq_sortBy (leaves : Leaves E) : leaves.sort = leaves.sortBy merging := by
  have same : (precedes : E → E → Bool) = mayPrecede Element.compare := rfl
  rw [sort, sortBy, merging, same]
  by_cases short : leaves.toList.length ≤ 1
  · rw [if_pos short, size, if_pos short]
    rfl
  · rw [if_neg short, size, if_neg short, bind_assoc]
    rfl

variable [LawfulNumbering E] {leaves : Leaves E}

theorem isSorted_of_nonDecreasing (inRoot : ∀ e ∈ leaves.toList, InRoot e)
    (distinct : leaves.toList.Nodup) (h : NonDecreasing Element.compare leaves.toList) :
    leaves.isSorted = .ok true := by
  apply (isSorted_of_inRoot inRoot).eq_true
  refine (h.and distinct).imp_of_mem ?_
  rintro a b ha hb ⟨before, differ⟩
  obtain ⟨o, order, _⟩ := totallyOrders_compare.swap (inRoot a ha) (inRoot b hb)
  cases o with
  | lt => exact order
  | eq => exact absurd ((totallyOrders_compare.eq_iff (inRoot a ha) (inRoot b hb)).mp order) differ
  | gt => exact absurd order before

/-- Every procedure finds an arrangement of leaves inside the root that does not decrease. -/
theorem exists_sortBy {arrange : Arrangement E} (sorts : Sorts arrange)
    (inRoot : ∀ e ∈ leaves.toList, InRoot e) :
    ∃ sorted : Leaves E, leaves.sortBy arrange = .ok sorted ∧
      sorted.toList.Perm leaves.toList ∧ NonDecreasing Element.compare sorted.toList := by
  obtain ⟨es, ran, perm, nonDecreasing⟩ := sorts (totallyOrders_compare.mono inRoot)
  refine ⟨⟨es⟩, ?_, perm, nonDecreasing⟩
  rw [sortBy, ran, ok_bind, pure_eq_ok]

theorem sortBy_eq_of_perm {sorted leaves' : Leaves E} {arrange : Arrangement E}
    (sorts : Sorts arrange) (inRoot : ∀ e ∈ sorted.toList, InRoot e)
    (nonDecreasing : NonDecreasing Element.compare sorted.toList)
    (perm : leaves'.toList.Perm sorted.toList) : leaves'.sortBy arrange = .ok sorted := by
  have inRoot' : ∀ e ∈ leaves'.toList, InRoot e := fun e he => inRoot e (perm.mem_iff.mp he)
  obtain ⟨sorted', ran, perm', nonDecreasing'⟩ := exists_sortBy sorts inRoot'
  have same := nonDecreasing.eq_of_perm (totallyOrders_compare.mono inRoot) nonDecreasing'
    (perm'.trans perm)
  rw [ran]
  exact congrArg Except.ok (congrArg Leaves.mk same)

end Leaves

open Element Leaves

/-- Distinct leaves inside the root have one sorted arrangement.  It does not depend on the order
in which they are given, nor on what the procedure does with leaves that compare equal. -/
theorem sort_is_canonical (s : Shape) {leaves leaves' : Leaves s.Carrier}
    (inRoot : ∀ e ∈ leaves.toList, InRoot e) (distinct : leaves.toList.Nodup)
    (perm : leaves'.toList.Perm leaves.toList) :
    ∃ sorted : Leaves s.Carrier, sorted.toList.Perm leaves.toList ∧
      sorted.isSorted = .ok true ∧ leaves.sort = .ok sorted ∧ leaves'.sort = .ok sorted ∧
      ∀ arrange : Arrangement s.Carrier, Sorts arrange →
        leaves.sortBy arrange = .ok sorted ∧ leaves'.sortBy arrange = .ok sorted := by
  obtain ⟨sorted, _, perm', nonDecreasing⟩ := exists_sortBy sorts_merging inRoot
  have inRoot' : ∀ e ∈ sorted.toList, InRoot e := fun e he => inRoot e (perm'.mem_iff.mp he)
  have unique : ∀ arrange : Arrangement s.Carrier, Sorts arrange →
      leaves.sortBy arrange = .ok sorted ∧ leaves'.sortBy arrange = .ok sorted :=
    fun arrange sorts => ⟨sortBy_eq_of_perm sorts inRoot' nonDecreasing perm'.symm,
      sortBy_eq_of_perm sorts inRoot' nonDecreasing (perm.trans perm'.symm)⟩
  have own := unique merging sorts_merging
  rw [← sort_eq_sortBy, ← sort_eq_sortBy] at own
  exact ⟨sorted, perm', isSorted_of_nonDecreasing inRoot' (perm'.symm.nodup distinct) nonDecreasing,
    own.1, own.2, unique⟩

/-- The root, its second child and the first child of that, out of order. -/
def nestedTets : Leaves Tet := ⟨[⟨0x100000, 0, 0, 0, 1⟩, ⟨0, 0, 0, 0, 0⟩, ⟨0x100000, 0, 0, 0, 2⟩]⟩

theorem sort_is_canonical_tet :
    (∀ e ∈ nestedTets.toList, InRoot e) ∧ nestedTets.toList.Nodup ∧
      nestedTets.reverse.toList.Perm nestedTets.toList ∧
      Sorts (fun cmp (xs : List Tet) => merging cmp xs.reverse) ∧
      ∃ sorted : Leaves Tet, sorted.toList.Perm nestedTets.toList ∧ sorted.isSorted = .ok true ∧
        nestedTets.sort = .ok sorted ∧ nestedTets.reverse.sort = .ok sorted ∧
        nestedTets.sortBy (fun cmp xs => merging cmp xs.reverse) = .ok sorted ∧
        nestedTets.reverse.sortBy (fun cmp xs => merging cmp xs.reverse) = .ok sorted := by
  have inRoot : ∀ e ∈ nestedTets.toList, InRoot e := by
    unfold InRoot
    decide
  have distinct : nestedTets.toList.Nodup := by decide
  have perm : nestedTets.reverse.toList.Perm nestedTets.toList := List.reverse_perm _
  have backwards : Sorts fun cmp (xs : List Tet) => merging cmp xs.reverse :=
    sorts_merging.of_reverse
  obtain ⟨sorted, same, increasing, sort, sort', unique⟩ :=
    sort_is_canonical .tet inRoot distinct perm
  exact ⟨inRoot, distinct, perm, backwards, sorted, same, increasing, sort, sort',
    unique _ backwards⟩

end MeshCurve
