import MeshCurve.Proofs.Leaves.Check
import MeshCurve.Proofs.Shadow
import Mathlib.Data.List.Forall2

/-!
# What the check accepts

Once the leaves are known to be valid, the check looks at their levels and ids only.  So
what it accepts are leaves with the levels and ids of an exact cover of the root, whether
they lie inside the root or not: their shadows are the cover.  An element inside the root
is its own shadow, and a line outside has none.
-/

namespace MeshCurve.Leaves

open Element

variable {E : Type} [Element E] {leaves cover : Leaves E}

/-! ## One test after the other -/

theorem isComplete_eq_true_iff : leaves.isComplete = .ok true ↔
    ∃ f, leaves.maxLevel? = .ok (some f) ∧ tilesFrom f 0 leaves.toList = .ok true := by
  rw [isComplete, bind_eq_ok_iff]
  constructor
  · rintro ⟨top, htop, h⟩
    cases top with
    | none => cases h
    | some f => exact ⟨f, htop, h⟩
  · rintro ⟨f, top, h⟩
    exact ⟨some f, top, h⟩

theorem of_check_eq_ok (h : leaves.check = .ok (.ok ())) :
    (∀ e ∈ leaves.toList, Valid e) ∧ leaves.isComplete = .ok true := by
  rw [check] at h
  split at h
  · cases h
  · next valid =>
      obtain ⟨sorted, _, h⟩ := bind_eq_ok_iff.mp h
      split at h
      · cases h
      · obtain ⟨top, _, h⟩ := bind_eq_ok_iff.mp h
        obtain ⟨ids, _, h⟩ := bind_eq_ok_iff.mp h
        split at h
        · cases h
        · obtain ⟨complete, hc, h⟩ := bind_eq_ok_iff.mp h
          split at h
          · next full => exact ⟨by simpa using valid, full ▸ hc⟩
          · cases h

theorem tilesFrom_cons_iff {f next : Nat} {e : E} {rest : List E} :
    tilesFrom f next (e :: rest) = .ok true ↔ linearId e f = .ok next ∧
      ∃ l covered, level e = .ok l ∧ Radix.pow (branching E) (f - l) = .ok covered ∧
        next + covered < wordBound ∧ tilesFrom f (next + covered) rest = .ok true := by
  rw [tilesFrom, bind_eq_ok_iff]
  constructor
  · rintro ⟨id, hid, h⟩
    split at h
    · cases h
    · next here =>
        obtain ⟨l, hl, h⟩ := bind_eq_ok_iff.mp h
        obtain ⟨covered, hc, h⟩ := bind_eq_ok_iff.mp h
        obtain ⟨stop, hs, h⟩ := bind_eq_ok_iff.mp h
        obtain ⟨small, rfl⟩ := word_eq_ok_iff.mp hs
        rw [not_not.mp here] at hid
        exact ⟨hid, l, covered, hl, hc, small, h⟩
  · rintro ⟨hid, l, covered, hl, hc, small, h⟩
    refine ⟨next, hid, ?_⟩
    rw [if_neg (not_not.mpr rfl), hl, ok_bind, hc, ok_bind, word_of_lt small, ok_bind, h]

/-- The counter only grows, so that no leaf of accepted ones has an id past the root. -/
theorem id_lt_of_tilesFrom {f next : Nat} (hf : f ≤ finest E) {leaves : List E}
    (h : tilesFrom f next leaves = .ok true) :
    next ≤ branching E ^ f ∧ ∀ e ∈ leaves, ∃ id < branching E ^ f, linearId e f = .ok id := by
  induction leaves generalizing next with
  | nil =>
      rw [tilesFrom, pow_eq_ok hf, ok_bind, pure_eq_ok, Except.ok.injEq, decide_eq_true_iff] at h
      exact ⟨h.le, fun e he => absurd he List.not_mem_nil⟩
  | cons e rest ih =>
      obtain ⟨hid, l, covered, _, hc, _, h⟩ := tilesFrom_cons_iff.mp h
      rw [pow_eq_ok ((Nat.sub_le f l).trans hf)] at hc
      cases hc
      obtain ⟨stop, later⟩ := ih h
      have some' : 0 < branching E ^ (f - l) := Nat.pow_pos (branching_pos E)
      exact ⟨by omega, List.forall_mem_cons.mpr ⟨⟨next, by omega, hid⟩, later⟩⟩

/-! ## Shadows -/

theorem exists_shadows {xs : List E} (h : ∀ e ∈ xs, ∃ s, Shadow e s) :
    ∃ ys, List.Forall₂ Shadow xs ys := by
  induction xs with
  | nil => exact ⟨[], .nil⟩
  | cons e xs ih =>
      obtain ⟨⟨s, hs⟩, later⟩ := List.forall_mem_cons.mp h
      obtain ⟨ys, hys⟩ := ih later
      exact ⟨s :: ys, .cons hs hys⟩

theorem forall_inRoot_of_shadows {xs ys : List E} (h : List.Forall₂ Shadow xs ys) :
    ∀ s ∈ ys, InRoot s := by
  induction h with
  | nil => exact fun s hs => absurd hs List.not_mem_nil
  | cons hes _ ih => exact List.forall_mem_cons.mpr ⟨hes.inRoot, ih⟩

theorem mapM_eq_of_shadows {α : Type} {g : E → Except Fault α} {xs ys : List E}
    (h : List.Forall₂ Shadow xs ys) (same : ∀ {e s}, Shadow e s → g e = g s) :
    xs.mapM g = ys.mapM g := by
  induction h with
  | nil => rfl
  | cons hes _ ih => rw [List.mapM_cons, List.mapM_cons, same hes, ih]

theorem maxLevel?_eq_of_shadows (h : List.Forall₂ Shadow leaves.toList cover.toList) :
    leaves.maxLevel? = cover.maxLevel? := by
  rw [maxLevel?, maxLevel?, levels, levels, mapM_eq_of_shadows h Shadow.level_eq]

theorem tilesFrom_eq_of_shadows {f next : Nat} (hf : f ≤ finest E) {xs ys : List E}
    (h : List.Forall₂ Shadow xs ys) : tilesFrom f next xs = tilesFrom f next ys := by
  induction h generalizing next with
  | nil => rfl
  | cons hes _ ih =>
      rw [tilesFrom, tilesFrom, hes.linearId_eq f hf, hes.level_eq]
      simp only [ih]

section

variable [LawfulNumbering E]

theorem top_le_finest (valid : ∀ e ∈ leaves.toList, Valid e) {top : Option Nat}
    (h : leaves.maxLevel? = .ok top) : top.getD 0 ≤ finest E := by
  cases top with
  | none => exact Nat.zero_le _
  | some f =>
      obtain ⟨e, he, hl⟩ := exists_of_maxLevel? h
      obtain ⟨l, fine, hl'⟩ := level_of_valid (valid e he)
      cases hl.symm.trans hl'
      exact fine

theorem eq_of_shadows {xs ys : List E} (h : List.Forall₂ Shadow xs ys)
    (inRoot : ∀ e ∈ xs, InRoot e) : ys = xs := by
  induction h with
  | nil => rfl
  | cons hes _ ih =>
      obtain ⟨first, later⟩ := List.forall_mem_cons.mp inRoot
      rw [hes.eq first, ih later]

theorem isSortedList_eq_of_shadows {xs ys : List E} (h : List.Forall₂ Shadow xs ys) :
    isSortedList xs = isSortedList ys := by
  induction h with
  | nil => rfl
  | cons hes rest ih =>
      cases rest with
      | nil => rfl
      | cons hes' _ => rw [isSortedList, isSortedList, compare_of_shadows hes hes', ih]

theorem isComplete_eq_of_shadows (valid : ∀ e ∈ leaves.toList, Valid e)
    (h : List.Forall₂ Shadow leaves.toList cover.toList) :
    leaves.isComplete = cover.isComplete := by
  rw [isComplete, isComplete, ← maxLevel?_eq_of_shadows h]
  cases top : leaves.maxLevel? with
  | error => rfl
  | ok top? =>
      cases top? with
      | none => rfl
      | some f => exact tilesFrom_eq_of_shadows (top_le_finest valid top) h

/-- Nothing but the first test tells leaves from their shadows. -/
theorem check_eq_of_shadows (valid : ∀ e ∈ leaves.toList, Valid e)
    (h : List.Forall₂ Shadow leaves.toList cover.toList) : leaves.check = cover.check := by
  have first : leaves.toList.find? (fun e => !decide (Valid e)) = none := by simpa using valid
  have second : cover.toList.find? (fun e => !decide (Valid e)) = none := by
    simpa using fun s hs => (forall_inRoot_of_shadows h s hs).1
  have sorted : leaves.isSorted = cover.isSorted := isSortedList_eq_of_shadows h
  rw [check, check, first, second, sorted, isComplete_eq_of_shadows valid h,
    ← maxLevel?_eq_of_shadows h]
  cases top : leaves.maxLevel? with
  | error => rfl
  | ok top? =>
      have ids := mapM_eq_of_shadows h fun hes => hes.linearId_eq _ (top_le_finest valid top)
      simp only [ok_bind, ids]

end

section

variable [LawfulIds E]

theorem exists_cover_of_complete (valid : ∀ e ∈ leaves.toList, Valid e)
    (complete : leaves.isComplete = .ok true) :
    ∃ cover : Leaves E, List.Forall₂ Shadow leaves.toList cover.toList := by
  obtain ⟨f, top, walk⟩ := isComplete_eq_true_iff.mp complete
  have hf : f ≤ finest E := top_le_finest valid top
  obtain ⟨_, small⟩ := id_lt_of_tilesFrom hf walk
  have each : ∀ e ∈ leaves.toList, ∃ s, Shadow e s := by
    intro e he
    rcases exists_shadow (valid e he) with shadow | past
    · exact shadow
    · obtain ⟨id, inside, hid⟩ := small e he
      obtain ⟨id', hid', outside⟩ := past f hf
      cases hid.symm.trans hid'
      exact absurd inside (Nat.not_lt.mpr outside)
  obtain ⟨ys, hys⟩ := exists_shadows each
  exact ⟨⟨ys⟩, hys⟩

theorem exists_cover_of_check (h : leaves.check = .ok (.ok ())) :
    ∃ cover : Leaves E, List.Forall₂ Shadow leaves.toList cover.toList :=
  exists_cover_of_complete (of_check_eq_ok h).1 (of_check_eq_ok h).2

variable [DecidableEq E]

theorem check_iff_exactCover (h : List.Forall₂ Shadow leaves.toList cover.toList)
    (valid : ∀ e ∈ leaves.toList, Valid e) :
    leaves.check = .ok (.ok ()) ↔ ExactCover cover := by
  have inRoot := forall_inRoot_of_shadows h
  rw [check_eq_of_shadows valid h, ← tiled_iff_exactCover inRoot]
  constructor
  · intro accepted
    exact (isComplete_of_inRoot inRoot).eq_true_iff.mp (of_check_eq_ok accepted).2
  · exact check_of_tiled

end

end MeshCurve.Leaves

namespace MeshCurve

open Element

theorem Line.inRoot_of_shadow {e s : Line} (he : Element.Valid e) (h : Shadow e s) : InRoot e := by
  refine ⟨he, congrArg Except.ok (decide_eq_true ?_)⟩
  by_contra outside
  exact h.not_pastRoot (Line.pastRoot_of_not_inside he outside)

theorem inRoot_of_shadow_line : ∀ {s : Shape}, s = .line → ∀ {e t : s.Carrier}, Valid e →
    Shadow e t → InRoot e
  | .line, _, _, _, he, h => Line.inRoot_of_shadow he h

namespace Leaves

/-- The check accepts valid leaves exactly if their shadows cover the root.  If they lie
inside the root, or are lines, this means that they cover it themselves. -/
theorem check_accepts_iff (s : Shape) (leaves : Leaves s.Carrier) :
    (leaves.check = .ok (.ok ()) ↔ (∀ e ∈ leaves.toList, Valid e) ∧
      ∃ cover : Leaves s.Carrier, List.Forall₂ Shadow leaves.toList cover.toList ∧
        ExactCover cover) ∧
    (leaves.check = .ok (.ok ()) →
      s = .line ∨ (∀ e ∈ leaves.toList, isInsideRoot e = .ok true) →
        (∀ e ∈ leaves.toList, isInsideRoot e = .ok true) ∧ ExactCover leaves) := by
  constructor
  · constructor
    · intro h
      have valid := (of_check_eq_ok h).1
      obtain ⟨cover, shadows⟩ := exists_cover_of_check h
      exact ⟨valid, cover, shadows, (check_iff_exactCover shadows valid).mp h⟩
    · rintro ⟨valid, cover, shadows, exact'⟩
      exact (check_iff_exactCover shadows valid).mpr exact'
  · intro h inside
    have valid := (of_check_eq_ok h).1
    obtain ⟨⟨cover⟩, shadows⟩ := exists_cover_of_check h
    have inRoot : ∀ e ∈ leaves.toList, InRoot e := by
      intro e he
      rcases inside with line | inside
      · obtain ⟨t, shadow⟩ : ∃ t, Shadow e t := by
          obtain ⟨i, hi, rfl⟩ := List.getElem_of_mem he
          exact ⟨_, shadows.get hi (shadows.length_eq ▸ hi)⟩
        exact inRoot_of_shadow_line line (valid e he) shadow
      · exact ⟨valid e he, inside e he⟩
    have covered := (check_iff_exactCover shadows valid).mp h
    obtain rfl : cover = leaves.toList := eq_of_shadows shadows inRoot
    exact ⟨fun e he => (inRoot e he).2, covered⟩

/-- The children of the root. -/
def twoLines : Leaves Line := ⟨[⟨0, 1⟩, ⟨0x20000000, 1⟩]⟩

theorem check_accepts_iff_line :
    twoLines.check = .ok (.ok ()) ∧ (∀ e ∈ twoLines.toList, Valid e) ∧
      (∃ cover : Leaves Line, List.Forall₂ Shadow twoLines.toList cover.toList ∧
        ExactCover cover) ∧
      (∀ e ∈ twoLines.toList, isInsideRoot e = .ok true) ∧ ExactCover twoLines := by
  have accepted : twoLines.check = .ok (.ok ()) := by rfl
  obtain ⟨iff, inside⟩ := check_accepts_iff .line twoLines
  obtain ⟨valid, cover, shadows, exact'⟩ := iff.mp accepted
  exact ⟨accepted, valid, ⟨cover, shadows, exact'⟩, inside accepted (.inl rfl)⟩

/-! ## Leaves outside the root -/

/-- The children of the root, the first of them moved away by the length of the root. -/
def movedQuads : Leaves Quad :=
  ⟨[⟨0x40000000, 0, 1⟩, ⟨0x20000000, 0, 1⟩, ⟨0, 0x20000000, 1⟩, ⟨0x20000000, 0x20000000, 1⟩]⟩

/-- The check accepts these leaves, though one is outside and nothing covers the first
child of the root. -/
theorem check_movedQuads :
    movedQuads.check = .ok (.ok ()) ∧ (⟨0x40000000, 0, 1⟩ : Quad) ∈ movedQuads.toList ∧
      isInsideRoot (⟨0x40000000, 0, 1⟩ : Quad) = .ok false ∧
      movedQuads.maxLevel? = .ok (some 1) ∧ InRoot (⟨0, 0, 1⟩ : Quad) ∧
      level (⟨0, 0, 1⟩ : Quad) = .ok 1 ∧ ¬ movedQuads.OneAbove ⟨0, 0, 1⟩ := by
  have uncovered : ∀ e ∈ movedQuads.toList, isAncestor e (⟨0, 0, 1⟩ : Quad) ≠ .ok true := by decide
  refine ⟨by rfl, by decide, by rfl, by rfl, ⟨by decide, by rfl⟩, by rfl, ?_⟩
  rintro ⟨i, ⟨e, hi, above⟩, _⟩
  exact uncovered e (List.mem_of_getElem? hi) above

/-- In every shape but the line there is an element outside the root that the check takes
for a tiling of the root. -/
theorem exists_accepted_outside : ∀ s : Shape, s ≠ .line → ∃ e : s.Carrier,
    (⟨[e]⟩ : Leaves s.Carrier).check = .ok (.ok ()) ∧ isInsideRoot e = .ok false
  | .line, h => absurd rfl h
  | .quad, _ => ⟨(⟨0x40000000, 0, 0⟩ : Quad), by rfl, by rfl⟩
  | .triangle, _ => ⟨(⟨0, 0, 1, 0⟩ : Triangle), by rfl, by rfl⟩
  | .tet, _ => ⟨(⟨0, 0, 0, 3, 0⟩ : Tet), by rfl, by rfl⟩
  | .prism, _ => ⟨(⟨Triangle.root, ⟨0x40000000, 0⟩⟩ : Prism), by rfl, by rfl⟩

end Leaves

end MeshCurve
