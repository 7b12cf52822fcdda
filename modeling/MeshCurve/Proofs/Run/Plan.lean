import MeshCurve.Fault
import MeshCurve.Run.Plan

/-!
# Laws of drafts

What the readers of a draft guarantee of its numbers, and which drafts are accepted.
-/

namespace MeshCurve.Run

/-! ## Readers -/

theorem natBelow?_lt {v : Value} {bound n : Nat} (h : v.natBelow? bound = some n) : n < bound := by
  cases v with
  | int i =>
      rw [Value.natBelow?] at h
      split at h
      · cases h
        omega
      · cases h
  | _ => cases h

/-- A field that may be left out keeps what its default and its reader have in common. -/
theorem forall_of_optional {α : Type} {fields : List (String × Value)} {name : String}
    {default a : α} {read : Value → Option α} {p : α → Prop} (fallback : p default)
    (each : ∀ v a, read v = some a → p a)
    (h : Value.optional fields name default read = some a) : p a := by
  rw [Value.optional] at h
  split at h
  · exact each _ _ h
  · cases h
    exact fallback

/-- Pass counts are read as 32-bit numbers. -/
theorem Draft.passes_lt_of_ofValue? {v : Value} {d : Draft} (h : ofValue? v = some d) :
    d.passes < 0x100000000 := by
  simp only [ofValue?, Option.bind_eq_bind, Option.bind_eq_some_iff] at h
  obtain ⟨fields, _, name, _, shapeName, _, initialLevel, _, passes, counted, rest⟩ := h
  obtain ⟨rule, _, minLevel, _, maxLevel, _, recursive, _, rest⟩ := rest
  obtain ⟨maxRefinements, _, maxCoarsenings, _, ops, _, h⟩ := rest
  cases h
  exact forall_of_optional (p := (· < 0x100000000)) (by decide) (fun _ _ => natBelow?_lt) counted

/-! ## Validation -/

/-- Validation accepts exactly the drafts whose names are known, whose first leaves the
shape allows and whose levels do not cross. -/
theorem Draft.validate_eq_ok_iff {d : Draft} {plan : Plan} : d.validate = .ok plan ↔
    ∃ shape ops, Shape.ofName d.shapeName = .ok shape ∧
      d.requiredOps.mapM Operation.ofName = .ok ops ∧ d.initialLevel ≤ shape.maxLevel ∧
      (∀ l, d.maxLevel = some l → d.minLevel ≤ l) ∧
      plan = { d with shape, requiredOps := ops } := by
  constructor
  · intro h
    obtain ⟨shape, named, h⟩ := bind_eq_ok_iff.mp h
    obtain ⟨ops, known, h⟩ := bind_eq_ok_iff.mp h
    have found := mapError_eq_ok_iff.mp named
    have read := mapError_eq_ok_iff.mp known
    by_cases fine : shape.maxLevel < d.initialLevel
    · simp only [if_pos fine] at h
      cases h
    · simp only [if_neg fine] at h
      split at h
      · next l given =>
          split at h
          · cases h
          · next uncrossed =>
              cases h
              refine ⟨shape, ops, found, read, Nat.not_lt.mp fine, ?_, rfl⟩
              intro l' given'
              cases given.symm.trans given'
              exact Nat.not_lt.mp uncrossed
      · next none =>
          cases h
          refine ⟨shape, ops, found, read, Nat.not_lt.mp fine, ?_, rfl⟩
          intro l' given'
          cases none.symm.trans given'
  · rintro ⟨shape, ops, found, read, coarse, uncrossed, rfl⟩
    refine bind_eq_ok_iff.mpr ⟨shape, mapError_eq_ok_iff.mpr found, ?_⟩
    refine bind_eq_ok_iff.mpr ⟨ops, mapError_eq_ok_iff.mpr read, ?_⟩
    simp only [if_neg (Nat.not_lt.mpr coarse)]
    split
    · next l given =>
        rw [if_neg (Nat.not_lt.mpr (uncrossed l given))]
        rfl
    · rfl

/-! ## Configurations -/

theorem exists_of_mem_of_mapM_eq_some {α β : Type} {f : α → Option β} {xs : List α}
    {ys : List β} (h : xs.mapM f = some ys) {y : β} (hy : y ∈ ys) : ∃ x ∈ xs, f x = some y := by
  induction xs generalizing ys with
  | nil =>
      cases h
      cases hy
  | cons x xs ih =>
      rw [List.mapM_cons] at h
      obtain ⟨z, hz, h⟩ := Option.bind_eq_some_iff.mp h
      obtain ⟨zs, hzs, h⟩ := Option.bind_eq_some_iff.mp h
      cases h
      rcases List.mem_cons.mp hy with rfl | hy
      · exact ⟨x, List.mem_cons_self, hz⟩
      · obtain ⟨w, hw, hwy⟩ := ih hzs hy
        exact ⟨w, List.mem_cons_of_mem x hw, hwy⟩

theorem passes_lt_of_draftsOfValue? {v : Value} {drafts : List Draft}
    (h : draftsOfValue? v = some drafts) {d : Draft} (hd : d ∈ drafts) :
    d.passes < 0x100000000 := by
  rw [draftsOfValue?] at h
  split at h
  · obtain ⟨fields, _, h⟩ := Option.bind_eq_some_iff.mp h
    obtain ⟨runs, _, h⟩ := Option.bind_eq_some_iff.mp h
    obtain ⟨run, _, read⟩ := exists_of_mem_of_mapM_eq_some h hd
    exact Draft.passes_lt_of_ofValue? read
  · cases h

/-- Every plan of a configuration comes from a draft that was accepted. -/
theorem exists_draft_of_plansOfValue {v : Value} {plans : List Plan}
    (h : plansOfValue v = .ok plans) {plan : Plan} (hp : plan ∈ plans) :
    ∃ d : Draft, d.passes < 0x100000000 ∧ d.validate = .ok plan := by
  rw [plansOfValue] at h
  split at h
  · cases h
  · cases h
  · next drafts _ read =>
      obtain ⟨d, hd, accepted⟩ := exists_of_mem_of_mapM_eq_ok h hp
      exact ⟨d, passes_lt_of_draftsOfValue? read hd, mapError_eq_ok_iff.mp accepted⟩

end MeshCurve.Run
