import MeshCurve.Proofs.Leaves.Tiling
import MeshCurve.Proofs.Order

/-!
# Complete leaves

The test for completeness keeps one counter, the id at which the next leaf has to
start.  What it decides is that the leaves increase along the curve and that every
element of the finest level among them has exactly one leaf above it.
-/

namespace MeshCurve.Leaves

open Element

variable {E : Type} [Element E]

/-- Every leaf comes before all later ones. -/
def Increasing (leaves : Leaves E) : Prop :=
  leaves.toList.Pairwise fun a b => Element.compare a b = .ok .lt

/-- Exactly one entry is `d` or an ancestor of it. -/
def OneAbove [DecidableEq E] (leaves : Leaves E) (d : E) : Prop :=
  ∃! i : Nat, ∃ e, leaves.toList[i]? = some e ∧ isAncestor e d = .ok true

/-- The leaves split the elements of the finest level among them. -/
structure ExactCover [DecidableEq E] (leaves : Leaves E) : Prop where
  nonempty : leaves.toList ≠ []
  increasing : leaves.Increasing
  oneAbove : ∃ finest, leaves.maxLevel? = .ok (some finest) ∧
    ∀ d, InRoot d → level d = .ok finest → leaves.OneAbove d

theorem Tiled.laid {lo hi : Nat} {leaves : List E} (h : Tiled lo hi leaves) :
    Laid lo leaves := by
  induction h with
  | nil => exact .nil
  | cons he _ ih => exact .cons (Nat.le_refl _) he ih

/-- A list without leaves does not tile the root. -/
theorem Tiled.ne_nil {leaves : List E} (h : Tiled 0 (branching E ^ finest E) leaves) :
    leaves ≠ [] := by
  rintro rfl
  exact (Nat.pow_pos (branching_pos E)).ne (tiled_nil_iff.mp h)

theorem Tiled.exists_over {lo hi n : Nat} {leaves : List E} (h : Tiled lo hi leaves)
    (from' : lo ≤ n) (until' : n < hi) :
    ∃ e ∈ leaves, ∃ start stop, Extent e start stop ∧ start ≤ n ∧ n < stop := by
  induction h with
  | nil => omega
  | @cons e lo mid hi rest he _ ih =>
      by_cases inside : n < mid
      · exact ⟨e, List.mem_cons_self, lo, mid, he, from', inside⟩
      · obtain ⟨d, mem, covered⟩ := ih (Nat.not_lt.mp inside) until'
        exact ⟨d, List.mem_cons_of_mem e mem, covered⟩

theorem level_le_of_maxLevel? {leaves : Leaves E} {f l : Nat} {e : E}
    (top : leaves.maxLevel? = .ok (some f)) (he : e ∈ leaves.toList) (hl : level e = .ok l) :
    l ≤ f := by
  obtain ⟨ls, hls, top⟩ := bind_eq_ok_iff.mp top
  obtain ⟨i, hi⟩ := List.getElem?_of_mem he
  obtain ⟨l', mem, hl'⟩ := getElem?_of_mapM_eq_ok hls hi
  cases hl.symm.trans hl'
  exact (List.max?_eq_some_iff.mp (Except.ok.inj top)).2 l (List.mem_of_getElem? mem)

theorem exists_of_maxLevel? {leaves : Leaves E} {f : Nat}
    (top : leaves.maxLevel? = .ok (some f)) : ∃ e ∈ leaves.toList, level e = .ok f := by
  obtain ⟨ls, hls, top⟩ := bind_eq_ok_iff.mp top
  have mem := (List.max?_eq_some_iff.mp (Except.ok.inj top)).1
  exact exists_of_mem_of_mapM_eq_ok hls mem

section

variable [LawfulNumbering E]

theorem exists_maxLevel? {leaves : Leaves E} (h : ∀ e ∈ leaves.toList, Valid e)
    (some' : leaves.toList ≠ []) : ∃ f ≤ finest E, leaves.maxLevel? = .ok (some f) := by
  obtain ⟨ls, hls, each, fine⟩ := exists_levels h
  cases hmax : ls.max? with
  | none =>
      obtain ⟨e, he⟩ := List.exists_mem_of_ne_nil _ some'
      obtain ⟨l, hl, _⟩ := each e he
      rw [List.max?_eq_none_iff.mp hmax] at hl
      exact absurd hl List.not_mem_nil
  | some f =>
      refine ⟨f, fine f (List.max?_eq_some_iff.mp hmax).1, ?_⟩
      rw [maxLevel?, hls, ok_bind, hmax, pure_eq_ok]

/-! ## Increasing leaves -/

theorem isSortedList_of_inRoot {leaves : List E} (h : ∀ e ∈ leaves, InRoot e) :
    Decides (isSortedList leaves)
      (leaves.Pairwise fun a b => Element.compare a b = .ok .lt) := by
  induction leaves with
  | nil => exact ⟨true, rfl, by simp⟩
  | cons a rest ih =>
      obtain ⟨ha, later⟩ := List.forall_mem_cons.mp h
      cases rest with
      | nil => exact ⟨true, rfl, by simp⟩
      | cons b rest =>
          have hb := later b List.mem_cons_self
          obtain ⟨o, order, _⟩ := totallyOrders_compare.swap ha hb
          rw [isSortedList, order, ok_bind, List.pairwise_cons]
          by_cases less : o = .lt
          · subst less
            rw [if_pos rfl]
            refine (ih later).congr ⟨fun sorted => ⟨?_, sorted⟩, And.right⟩
            intro c hc
            rcases List.mem_cons.mp hc with rfl | hc
            · exact order
            · have next := (List.pairwise_cons.mp sorted).1 c hc
              exact totallyOrders_compare.trans ha hb (later c (by simp [hc])) order next
          · rw [if_neg less, pure_eq_ok]
            apply decides_false
            rintro ⟨first, _⟩
            exact less (Except.ok.inj (order.symm.trans (first b List.mem_cons_self)))

theorem isSorted_of_inRoot {leaves : Leaves E} (h : ∀ e ∈ leaves.toList, InRoot e) :
    Decides leaves.isSorted leaves.Increasing :=
  isSortedList_of_inRoot h

/-! ## No overlap and no gap -/

/-- Two leaves above one element are the same entry. -/
theorem index_unique {leaves : List E} (inRoot : ∀ e ∈ leaves, InRoot e)
    (apart : leaves.Pairwise Apart) {i j : Nat} {a b d : E} (hi : leaves[i]? = some a)
    (hj : leaves[j]? = some b) (ha : Below a d) (hb : Below b d) : i = j := by
  have va := (inRoot a (List.mem_of_getElem? hi)).1
  have vb := (inRoot b (List.mem_of_getElem? hj)).1
  obtain ⟨ilt, rfl⟩ := List.getElem?_eq_some_iff.mp hi
  obtain ⟨jlt, rfl⟩ := List.getElem?_eq_some_iff.mp hj
  have across := List.pairwise_iff_getElem.mp apart
  have nested := Below.comparable va vb ha hb
  rcases Nat.lt_trichotomy i j with lt | eq | gt
  · exact absurd nested (not_or.mpr (across i j ilt jlt lt))
  · exact eq
  · exact absurd nested.symm (not_or.mpr (across j i jlt ilt gt))

variable [DecidableEq E]

theorem Laid.le_of_covers {next n : Nat} {leaves : List E} (h : Laid next leaves)
    (covers : Covers leaves n) : next ≤ n := by
  obtain ⟨d, ⟨hd, hl, hid⟩, e, mem, above⟩ := covers
  obtain ⟨lo, hi, he⟩ := inRoot_iff_extent.mp (h.inRoot e mem)
  have below := (isAncestor_of_valid he.inRoot.1 hd.1).eq_true_iff.mp above
  exact (h.le_start mem he).trans (below.extent_le he (extent_of_finest hd hl hid)).1

/-- Leaves without overlap tile the rest of the root if none of its ids is missing. -/
theorem Laid.tiled {next : Nat} {leaves : List E} (h : Laid next leaves)
    (room : next ≤ branching E ^ finest E)
    (covers : ∀ n, next ≤ n → n < branching E ^ finest E → Covers leaves n) :
    Tiled next (branching E ^ finest E) leaves := by
  induction h with
  | @nil next =>
      obtain short | rfl := Nat.lt_or_eq_of_le room
      · exact absurd (covers next (Nat.le_refl _) short) not_covers_nil
      · exact .nil
  | @cons e next lo hi rest start he laid ih =>
      have from' := (laid_cons_iff he).mpr ⟨Nat.le_refl lo, laid⟩
      have nonempty := he.lt
      have inside := he.hi_le
      obtain rfl := Nat.le_antisymm start
        (from'.le_of_covers (covers next (Nat.le_refl _) (by omega)))
      refine .cons he (ih inside ?_)
      intro n past short
      have there := covers n (by omega) short
      rw [← List.singleton_append, covers_append, covers_singleton he] at there
      exact there.resolve_left fun first => Nat.not_lt.mpr past first.2

variable {leaves : Leaves E} {f : Nat}

theorem Tiled.oneAbove (h : Tiled 0 (branching E ^ finest E) leaves.toList)
    (top : leaves.maxLevel? = .ok (some f)) {d : E} (hd : InRoot d) (hl : level d = .ok f) :
    leaves.OneAbove d := by
  have inRoot := h.laid.inRoot
  obtain ⟨m, n, dd⟩ := inRoot_iff.mp hd
  obtain rfl := Except.ok.inj (hl.symm.trans dd.level_of_root)
  have ed := dd.extent
  obtain ⟨e, mem, _, _, ⟨l, k, de, rfl, rfl⟩, from', until'⟩ :=
    h.exists_over (Nat.zero_le _) (ed.lt.trans_le ed.hi_le)
  have coarser := level_le_of_maxLevel? top mem de.level_of_root
  have below : Below e d := below_of_start de dd coarser from' until'
  obtain ⟨i, hi⟩ := List.getElem?_of_mem mem
  refine ⟨i, ⟨e, hi, (isAncestor_of_valid de.valid_of_root hd.1).eq_true below⟩, ?_⟩
  rintro j ⟨a, hj, above⟩
  have va := (inRoot a (List.mem_of_getElem? hj)).1
  have covered := (isAncestor_of_valid va hd.1).eq_true_iff.mp above
  exact index_unique inRoot h.laid.pairwise_apart hj hi covered below

/-- An element and one below it would both be above what is under the finer one. -/
theorem pairwise_apart_of_oneAbove (inRoot : ∀ e ∈ leaves.toList, InRoot e)
    (top : leaves.maxLevel? = .ok (some f)) (hf : f ≤ finest E)
    (h : ∀ d, InRoot d → level d = .ok f → leaves.OneAbove d) : leaves.toList.Pairwise Apart := by
  have distinct : ∀ {i j : Nat} {a b : E}, leaves.toList[i]? = some a →
      leaves.toList[j]? = some b → Below a b → i = j := by
    intro i j a b hi hj below
    have ha := inRoot a (List.mem_of_getElem? hi)
    have hb := inRoot b (List.mem_of_getElem? hj)
    obtain ⟨m, n, db⟩ := inRoot_iff.mp hb
    have coarser := level_le_of_maxLevel? top (List.mem_of_getElem? hj) db.level_of_root
    obtain ⟨d, _, under⟩ :=
      firstDescendant_of_valid db.valid_of_root db.level_of_root coarser hf
    have dd := db.trans under
    have ld := dd.level_of_root
    rw [Nat.add_sub_cancel' coarser] at ld
    obtain ⟨k, _, only⟩ := h d dd.inRoot ld
    have under' : Below b d := ⟨_, _, under⟩
    have first := only i ⟨a, hi, (isAncestor_of_valid ha.1 dd.valid_of_root).eq_true
      (below.trans under')⟩
    have second := only j ⟨b, hj, (isAncestor_of_valid hb.1 dd.valid_of_root).eq_true under'⟩
    exact first.trans second.symm
  rw [List.pairwise_iff_getElem]
  intro i j hi hj lt
  have ai := List.getElem?_eq_getElem hi
  have aj := List.getElem?_eq_getElem hj
  exact ⟨fun below => lt.ne (distinct ai aj below), fun below => lt.ne' (distinct aj ai below)⟩

theorem covers_of_oneAbove (inRoot : ∀ e ∈ leaves.toList, InRoot e) (hf : f ≤ finest E)
    (h : ∀ d, InRoot d → level d = .ok f → leaves.OneAbove d) {n : Nat}
    (hn : n < branching E ^ finest E) : Covers leaves.toList n := by
  obtain ⟨b, db⟩ := exists_descends_root (E := E) (Nat.le_refl _) hn
  have whole : Descends root (f + (finest E - f)) n b := by rwa [Nat.add_sub_cancel' hf]
  obtain ⟨d, dd, under⟩ := whole.split
  obtain ⟨i, ⟨e, hi, above⟩, _⟩ := h d dd.inRoot dd.level_of_root
  have mem := List.mem_of_getElem? hi
  have he := (inRoot e mem).1
  have covered := (isAncestor_of_valid he dd.valid_of_root).eq_true_iff.mp above
  refine ⟨b, ⟨db.inRoot, db.level_of_root, ?_⟩, e, mem, ?_⟩
  · rw [linearId_of_descends db (Nat.le_refl _), idAt_self]
  · exact (isAncestor_of_valid he db.valid_of_root).eq_true (covered.trans ⟨_, _, under⟩)

theorem tiled_iff_exactCover (inRoot : ∀ e ∈ leaves.toList, InRoot e) :
    Tiled 0 (branching E ^ finest E) leaves.toList ↔ ExactCover leaves := by
  constructor
  · intro h
    obtain ⟨f, _, top⟩ := exists_maxLevel? (fun e he => (inRoot e he).1) h.ne_nil
    refine ⟨h.ne_nil, (isSorted_of_inRoot inRoot).eq_true_iff.mp h.laid.sorted, f, top, ?_⟩
    intro d hd hl
    exact h.oneAbove top hd hl
  · rintro ⟨some', increasing, f, top, one⟩
    obtain ⟨f', hf, top'⟩ := exists_maxLevel? (fun e he => (inRoot e he).1) some'
    obtain rfl := Option.some.inj (Except.ok.inj (top.symm.trans top'))
    have apart := pairwise_apart_of_oneAbove inRoot top hf one
    have ordered : Ordered leaves := {
      inRoot := inRoot
      sorted := (isSorted_of_inRoot inRoot).eq_true increasing
      separate := (separate_iff fun e he => (inRoot e he).1).mpr apart }
    apply (ordered_iff_laid.mp ordered).tiled (Nat.zero_le _)
    intro n _ hn
    exact covers_of_oneAbove inRoot hf one hn

end

/-- Over leaves inside the root, whatever their order and overlaps, the test always answers,
and it accepts the exact covers. -/
theorem isComplete_iff_exactCover (s : Shape) {leaves : Leaves s.Carrier}
    (inRoot : ∀ e ∈ leaves.toList, InRoot e) : Decides leaves.isComplete (ExactCover leaves) :=
  (isComplete_of_inRoot inRoot).congr (tiled_iff_exactCover inRoot)

/-- The children of the root, the second of them split again. -/
def sevenTriangles : Leaves Triangle :=
  ⟨[⟨0, 0, 0, 1⟩, ⟨0x10000000, 0, 0, 2⟩, ⟨0x18000000, 0, 0, 2⟩, ⟨0x18000000, 0, 1, 2⟩,
    ⟨0x18000000, 0x8000000, 0, 2⟩, ⟨0x10000000, 0, 1, 1⟩, ⟨0x10000000, 0x10000000, 0, 1⟩]⟩

/-- In the other order they cover the root as well, but do not follow the curve. -/
theorem isComplete_iff_exactCover_triangle :
    (∀ e ∈ sevenTriangles.toList, InRoot e) ∧ sevenTriangles.isComplete = .ok true ∧
      ExactCover sevenTriangles ∧ (∀ e ∈ sevenTriangles.reverse.toList, InRoot e) ∧
      sevenTriangles.reverse.isComplete = .ok false ∧ ¬ ExactCover sevenTriangles.reverse := by
  have inRoot : ∀ e ∈ sevenTriangles.toList, InRoot e := by
    unfold InRoot
    decide
  have inRoot' : ∀ e ∈ sevenTriangles.reverse.toList, InRoot e := by simpa using inRoot
  have full : sevenTriangles.isComplete = .ok true := by rfl
  have stuck : sevenTriangles.reverse.isComplete = .ok false := by rfl
  exact ⟨inRoot, full, (isComplete_iff_exactCover .triangle inRoot).eq_true_iff.mp full,
    inRoot', stuck, (isComplete_iff_exactCover .triangle inRoot').eq_false_iff.mp stuck⟩

end MeshCurve.Leaves
