import MeshCurve.Metrics.Basic
import MeshCurve.Proofs.Leaves.Complete

/-!
# Recording passes

Levels of elements have a place in the histogram, so that nothing but a counter that
leaves its word can stop a record.
-/

namespace MeshCurve

open Element

variable {E : Type} [Element E]

theorem finest_lt_histogramSize (E : Type) [Element E] : finest E < Leaves.histogramSize := by
  unfold finest
  cases shape E <;> decide

theorem Leaves.countPerLevel_eq_ok_iff {leaves : Leaves E} {counts : List Nat} :
    leaves.countPerLevel = .ok counts ↔ ∃ ls, leaves.levels = .ok ls ∧
      (∀ l ∈ ls, l < histogramSize) ∧ (List.range histogramSize).map ls.count = counts := by
  rw [countPerLevel, bind_eq_ok_iff]
  constructor
  · rintro ⟨ls, hls, h⟩
    split at h
    · next small => exact ⟨ls, hls, small, Except.ok.inj h⟩
    · cases h
  · rintro ⟨ls, hls, small, rfl⟩
    exact ⟨ls, hls, if_pos small⟩

theorem Leaves.exists_countPerLevel [LawfulNumbering E] {leaves : Leaves E}
    (h : ∀ e ∈ leaves.toList, InRoot e) :
    ∃ ls, leaves.levels = .ok ls ∧
      leaves.countPerLevel = .ok ((List.range histogramSize).map ls.count) := by
  obtain ⟨ls, hls, _, fine⟩ := exists_levels fun e he => (h e he).1
  have small : ∀ l ∈ ls, l < histogramSize :=
    fun l hl => (fine l hl).trans_lt (finest_lt_histogramSize E)
  exact ⟨ls, hls, countPerLevel_eq_ok_iff.mpr ⟨ls, hls, small, rfl⟩⟩

namespace Metrics

/-- The counters of one more pass stay within their words. -/
structure HasRoom (m : Metrics) (stats : Adapt.Stats) : Prop where
  refinements : m.totalRefinements + stats.refinements < wordBound
  coarsenings : m.totalCoarsenings + stats.coarsenings < wordBound
  passes : m.passes + 1 < wordBound

/-- One more pass that ends with `counts` leaves on the levels, not timed yet. -/
def tally (m : Metrics) (counts : List Nat) (stats : Adapt.Stats) : Metrics :=
  { m with
    leavesPerLevel := counts
    totalRefinements := m.totalRefinements + stats.refinements
    totalCoarsenings := m.totalCoarsenings + stats.coarsenings
    passes := m.passes + 1 }

theorem recordPass_eq_ok_iff {m m' : Metrics} {leaves : Leaves E} {stats : Adapt.Stats}
    {microseconds : Option Nat} {counts : List Nat} (on : m.collecting = true)
    (counted : leaves.countPerLevel = .ok counts) :
    m.recordPass leaves stats microseconds = .ok m' ↔ m.HasRoom stats ∧
      m' = microseconds.elim (m.tally counts stats) (m.tally counts stats).recordTiming := by
  have updated : m.updateLeaves leaves = .ok { m with leavesPerLevel := counts } := by
    rw [updateLeaves, if_pos on, counted, ok_bind, pure_eq_ok]
  rw [recordPass, if_neg (by simp [on]), during_of_ok updated, ok_bind]
  constructor
  · intro h
    obtain ⟨_, refinements, h⟩ := bind_eq_ok_iff.mp h
    obtain ⟨_, coarsenings, h⟩ := bind_eq_ok_iff.mp h
    obtain ⟨_, passes, h⟩ := bind_eq_ok_iff.mp h
    obtain ⟨roomR, rfl⟩ := word_eq_ok_iff.mp (during_eq_ok_iff.mp refinements)
    obtain ⟨roomC, rfl⟩ := word_eq_ok_iff.mp (during_eq_ok_iff.mp coarsenings)
    obtain ⟨roomP, rfl⟩ := word_eq_ok_iff.mp (during_eq_ok_iff.mp passes)
    refine ⟨⟨roomR, roomC, roomP⟩, ?_⟩
    cases microseconds <;> exact (Except.ok.inj h).symm
  · rintro ⟨room, rfl⟩
    simp only [during_of_ok (word_of_lt room.refinements), ok_bind,
      during_of_ok (word_of_lt room.coarsenings), during_of_ok (word_of_lt room.passes)]
    cases microseconds <;> rfl

/-- The totals after one more pass. -/
structure Records (m : Metrics) (stats : Adapt.Stats) (m' : Metrics) : Prop where
  collecting : m'.collecting = true
  refinements : m'.totalRefinements = m.totalRefinements + stats.refinements
  coarsenings : m'.totalCoarsenings = m.totalCoarsenings + stats.coarsenings
  passes : m'.passes = m.passes + 1

theorem exists_recordPass [LawfulNumbering E] {m : Metrics} {leaves : Leaves E}
    {stats : Adapt.Stats} (on : m.collecting = true) (h : ∀ e ∈ leaves.toList, InRoot e)
    (refinements : m.totalRefinements + stats.refinements < wordBound)
    (coarsenings : m.totalCoarsenings + stats.coarsenings < wordBound)
    (passes : m.passes + 1 < wordBound) :
    ∃ m', m.recordPass leaves stats none = .ok m' ∧ m.Records stats m' := by
  obtain ⟨ls, _, counted⟩ := Leaves.exists_countPerLevel h
  exact ⟨_, (recordPass_eq_ok_iff on counted).mpr ⟨⟨refinements, coarsenings, passes⟩, rfl⟩,
    on, rfl, rfl, rfl⟩

end Metrics

end MeshCurve
