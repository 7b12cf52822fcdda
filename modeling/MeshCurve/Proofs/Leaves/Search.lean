import MeshCurve.Proofs.Leaves.Complete
import MeshCurve.Proofs.Shadow

/-!
# Searching the leaves

The search tells elements apart by level and ids alone.  For an element inside the root
this answers whether it is a leaf; elsewhere it answers whether its shadow is one.
-/

namespace MeshCurve.Leaves

open Element

variable {E : Type} [Element E] {e : E} {window : List E}

/-- As `e` sees it the window is sorted: entries before it, perhaps one equal to it, and
entries after it. -/
structure Facing (e : E) (window : List E) : Prop where
  comparable : ∀ c ∈ window, ∃ o, Element.compare c e = .ok o
  sorted : window.Pairwise fun a b =>
    Element.compare a e = .ok .lt ∨ Element.compare b e = .ok .gt

theorem Facing.sublist {part : List E} (h : Facing e window) (sub : part.Sublist window) :
    Facing e part where
  comparable c hc := h.comparable c (sub.subset hc)
  sorted := h.sorted.sublist sub

/-- What is equal to `e` stands in front of an entry that comes after it. -/
theorem Facing.mem_take {m n : Nat} {b c : E} (h : Facing e window) (hb : window[m]? = some b)
    (beyond : Element.compare b e = .ok .gt) (wide : m ≤ n) (hc : c ∈ window)
    (found : Element.compare c e = .ok .eq) : c ∈ window.take n := by
  obtain ⟨hm, rfl⟩ := List.getElem?_eq_some_iff.mp hb
  obtain ⟨j, hj, rfl⟩ := List.getElem_of_mem hc
  rcases Nat.lt_trichotomy j m with lt | rfl | gt
  · exact List.mem_take_iff_getElem.mpr ⟨j, by omega, rfl⟩
  · cases beyond.symm.trans found
  · have order := List.pairwise_iff_getElem.mp h.sorted m j hm hj gt
    simp [beyond, found] at order

/-- What is equal to `e` does not stand in front of an entry up to it. -/
theorem Facing.mem_drop {m : Nat} {b c : E} (h : Facing e window) (hb : window[m]? = some b)
    (reached : Element.compare b e ≠ .ok .gt) (hc : c ∈ window)
    (found : Element.compare c e = .ok .eq) : c ∈ window.drop m := by
  obtain ⟨hm, rfl⟩ := List.getElem?_eq_some_iff.mp hb
  obtain ⟨j, hj, rfl⟩ := List.getElem_of_mem hc
  by_cases early : j < m
  · have order := List.pairwise_iff_getElem.mp h.sorted j m hj hm early
    simp [reached, found] at order
  · obtain ⟨k, rfl⟩ := Nat.exists_eq_add_of_le (Nat.not_lt.mp early)
    exact List.mem_drop_iff_getElem.mpr ⟨k, by rwa [Nat.add_comm], rfl⟩

theorem search_of_many {c : E} {o : Ordering} (many : 1 < window.length)
    (hc : window[window.length / 2]? = some c) (ho : Element.compare c e = .ok o) :
    search e window =
      if o = .gt then search e (window.take (window.length - window.length / 2))
      else search e (window.drop (window.length / 2)) := by
  obtain ⟨inside, rfl⟩ := List.getElem?_eq_some_iff.mp hc
  rw [search, dif_pos many]
  simp only [ho, ok_bind]

/-- Nothing equal to `e` is lost with the half that is left out. -/
theorem search_decides (h : Facing e window) :
    Decides (search e window) (∃ c ∈ window, Element.compare c e = .ok .eq) := by
  induction hn : window.length using Nat.strongRecOn generalizing window with
  | ind n ih =>
      subst hn
      have go {part : List E} (sub : part.Sublist window) (less : part.length < window.length)
          (kept : ∀ c ∈ window, Element.compare c e = .ok .eq → c ∈ part) :
          Decides (search e part) (∃ c ∈ window, Element.compare c e = .ok .eq) := by
        refine (ih part.length less (h.sublist sub) rfl).congr ⟨?_, ?_⟩
        · rintro ⟨c, hc, found⟩
          exact ⟨c, sub.subset hc, found⟩
        · rintro ⟨c, hc, found⟩
          exact ⟨c, kept c hc found, found⟩
      by_cases many : 1 < window.length
      · have inside : window.length / 2 < window.length := by omega
        have mid := List.getElem?_eq_getElem inside
        obtain ⟨o, ho⟩ := h.comparable _ (List.mem_of_getElem? mid)
        rw [search_of_many many mid ho]
        split
        · next beyond =>
            apply go (List.take_sublist _ _)
            · rw [List.length_take]
              omega
            · exact fun c => h.mem_take mid (beyond ▸ ho) (by omega)
        · next reached =>
            apply go (List.drop_sublist _ _)
            · rw [List.length_drop]
              omega
            · exact fun c => h.mem_drop mid (by simpa [ho] using reached)
      · rw [search, dif_neg many]
        cases window with
        | nil => exact ⟨false, rfl, by simp⟩
        | cons c rest =>
            obtain rfl : rest = [] := List.length_eq_zero_iff.mp (by simpa using many)
            obtain ⟨o, ho⟩ := h.comparable c List.mem_cons_self
            simp only [ho, ok_bind, pure_eq_ok]
            exact decides_of_ok.congr (by simp [ho])

/-! ## Sorted leaves -/

/-- `d` is on the level of `e` and has its id there. -/
def SameId (d e : E) : Prop :=
  ∃ l id, level d = .ok l ∧ level e = .ok l ∧ linearId d l = .ok id ∧ linearId e l = .ok id

section

variable [LawfulNumbering E] {leaves : Leaves E}

theorem eq_of_sameId {d s : E} (hd : InRoot d) (hs : InRoot s) (same : SameId d s) : d = s := by
  obtain ⟨l, id, ld, ls, hid, his⟩ := same
  obtain ⟨_, i, dd⟩ := inRoot_iff.mp hd
  obtain ⟨_, j, ds⟩ := inRoot_iff.mp hs
  obtain rfl := Except.ok.inj (ld.symm.trans dd.level_of_root)
  obtain rfl := Except.ok.inj (ls.symm.trans ds.level_of_root)
  rw [linearId_of_descends dd dd.le_finest, idAt_self] at hid
  rw [linearId_of_descends ds ds.le_finest, idAt_self] at his
  cases hid
  cases his
  exact dd.unique ds

theorem sameId_self {s : E} (hs : InRoot s) : SameId s s := by
  obtain ⟨l, i, ds⟩ := inRoot_iff.mp hs
  have id := linearId_of_descends ds ds.le_finest
  exact ⟨l, _, ds.level_of_root, ds.level_of_root, id, id⟩

theorem sameId_iff_of_shadow {d s : E} (h : Shadow e s) (hd : InRoot d) :
    SameId d e ↔ d = s := by
  obtain ⟨m, fine, ls⟩ := level_of_valid h.inRoot.1
  have carry : SameId d e ↔ SameId d s := by
    unfold SameId
    rw [h.level_eq]
    refine exists_congr fun l => exists_congr fun id => and_congr_right fun _ =>
      and_congr_right fun ls' => ?_
    cases ls.symm.trans ls'
    rw [h.linearId_eq m fine]
  rw [carry]
  refine ⟨eq_of_sameId hd h.inRoot, ?_⟩
  rintro rfl
  exact sameId_self hd

theorem not_sameId_of_pastRoot {d : E} (h : PastRoot e) (hd : InRoot d) : ¬ SameId d e := by
  rintro ⟨l, id, ld, _, hid, hie⟩
  obtain ⟨_, i, dd⟩ := inRoot_iff.mp hd
  obtain rfl := Except.ok.inj (ld.symm.trans dd.level_of_root)
  obtain ⟨id', hid', past⟩ := h l dd.le_finest
  rw [linearId_of_descends dd dd.le_finest, idAt_self] at hid
  cases hid
  cases hie.symm.trans hid'
  exact Nat.not_lt.mpr past dd.lt

/-- Inside the root level and id belong to one element. -/
theorem exists_sameId_iff (inRoot : ∀ d ∈ leaves.toList, InRoot d) (he : InRoot e) :
    (∃ d ∈ leaves.toList, SameId d e) ↔ e ∈ leaves.toList := by
  constructor
  · rintro ⟨d, hd, same⟩
    rwa [← eq_of_sameId (inRoot d hd) he same]
  · exact fun hd => ⟨e, hd, sameId_self he⟩

end

section

variable [LawfulIds E] {leaves : Leaves E}

theorem compare_eq_iff {d : E} (he : Valid e) (hd : InRoot d) :
    Element.compare d e = .ok .eq ↔ SameId d e := by
  rcases exists_shadow he with ⟨s, h⟩ | past
  · rw [compare_of_shadow h hd, sameId_iff_of_shadow h hd]
    exact totallyOrders_compare.eq_iff hd h.inRoot
  · obtain ⟨l, fine, hl⟩ := level_of_valid he
    rw [compare_of_pastRoot past hl fine hd]
    exact iff_of_false (by decide) (not_sameId_of_pastRoot past hd)

theorem facing_of_increasing (inRoot : ∀ d ∈ leaves.toList, InRoot d)
    (increasing : leaves.Increasing) (he : Valid e) : Facing e leaves.toList := by
  rcases exists_shadow he with ⟨s, h⟩ | past
  · constructor
    · intro c hc
      obtain ⟨o, order, _⟩ := totallyOrders_compare.swap (inRoot c hc) h.inRoot
      exact ⟨o, (compare_of_shadow h (inRoot c hc)).trans order⟩
    · refine increasing.imp_of_mem fun {a b} ha hb less => ?_
      rw [compare_of_shadow h (inRoot a ha), compare_of_shadow h (inRoot b hb)]
      exact totallyOrders_compare.lt_or_gt (inRoot a ha) (inRoot b hb) h.inRoot less
  · obtain ⟨l, fine, hl⟩ := level_of_valid he
    have before {c : E} (hc : c ∈ leaves.toList) : Element.compare c e = .ok .lt :=
      compare_of_pastRoot past hl fine (inRoot c hc)
    exact ⟨fun c hc => ⟨_, before hc⟩, increasing.imp_of_mem fun ha _ _ => .inl (before ha)⟩

/-- The search looks for a leaf of the same level and id. -/
theorem contains_of_increasing (inRoot : ∀ d ∈ leaves.toList, InRoot d)
    (increasing : leaves.Increasing) (he : Valid e) :
    Decides (leaves.contains e) (∃ d ∈ leaves.toList, SameId d e) := by
  refine (search_decides (facing_of_increasing inRoot increasing he)).congr ?_
  exact exists_congr fun d => and_congr_right fun hd => compare_eq_iff he (inRoot d hd)

end

/-- Lines outside the root have ids of their own. -/
theorem exists_sameId_line_iff {leaves : Leaves Line} {e : Line}
    (inRoot : ∀ d ∈ leaves.toList, InRoot d) (he : Valid e) :
    (∃ d ∈ leaves.toList, SameId d e) ↔ e ∈ leaves.toList := by
  by_cases inside : e.IsInsideRoot
  · exact exists_sameId_iff inRoot ⟨he, congrArg _ (decide_eq_true inside)⟩
  · have past := Line.pastRoot_of_not_inside he inside
    constructor
    · rintro ⟨d, hd, same⟩
      exact absurd same (not_sameId_of_pastRoot past (inRoot d hd))
    · intro mem
      exact absurd past (not_pastRoot (inRoot e mem))

/-- Among sorted leaves the search finds whether one has the level and the id of the element.
That leaf is the element itself if the element is inside the root or a line. -/
theorem contains_iff_sameId (s : Shape) {leaves : Leaves s.Carrier}
    (inRoot : ∀ d ∈ leaves.toList, InRoot d) (sorted : leaves.isSorted = .ok true)
    {e : s.Carrier} (he : Valid e) :
    ∃ found, leaves.contains e = .ok found ∧
      (found = true ↔ ∃ d ∈ leaves.toList, SameId d e) ∧
      (InRoot e ∨ s = .line → (found = true ↔ e ∈ leaves.toList)) := by
  have increasing := (isSorted_of_inRoot inRoot).eq_true_iff.mp sorted
  obtain ⟨found, run, iff⟩ := contains_of_increasing inRoot increasing he
  refine ⟨found, run, iff, ?_⟩
  rintro (inside | rfl)
  · exact iff.trans (exists_sameId_iff inRoot inside)
  · exact iff.trans (exists_sameId_line_iff inRoot he)

theorem contains_iff_sameId_triangle :
    (∀ d ∈ sevenTriangles.toList, InRoot d) ∧ sevenTriangles.isSorted = .ok true ∧
      Valid (⟨0x18000000, 0, 1, 2⟩ : Triangle) ∧ InRoot (⟨0x18000000, 0, 1, 2⟩ : Triangle) ∧
      sevenTriangles.contains ⟨0x18000000, 0, 1, 2⟩ = .ok true ∧
      Valid (⟨0x10000000, 0, 0, 1⟩ : Triangle) ∧ InRoot (⟨0x10000000, 0, 0, 1⟩ : Triangle) ∧
      sevenTriangles.contains ⟨0x10000000, 0, 0, 1⟩ = .ok false := by
  have inRoot : ∀ d ∈ sevenTriangles.toList, InRoot d := by
    unfold InRoot
    decide
  have sorted : sevenTriangles.isSorted = .ok true := by rfl
  have leaf : InRoot (⟨0x18000000, 0, 1, 2⟩ : Triangle) := ⟨by decide, by rfl⟩
  have split : InRoot (⟨0x10000000, 0, 0, 1⟩ : Triangle) := ⟨by decide, by rfl⟩
  obtain ⟨found, run, _, iff⟩ := contains_iff_sameId .triangle inRoot sorted leaf.1
  obtain ⟨found', run', _, iff'⟩ := contains_iff_sameId .triangle inRoot sorted split.1
  obtain rfl : found = true := (iff (.inl leaf)).mpr (by decide)
  obtain rfl : found' = false := by
    rw [Bool.eq_false_iff, ne_eq, iff' (.inl split)]
    decide
  exact ⟨inRoot, sorted, leaf.1, leaf, run, split.1, split, run'⟩

/-! ## Elements outside the root -/

/-- The children of the root. -/
def fourQuads : Leaves Quad :=
  ⟨[⟨0, 0, 1⟩, ⟨0x20000000, 0, 1⟩, ⟨0, 0x20000000, 1⟩, ⟨0x20000000, 0x20000000, 1⟩]⟩

/-- The neighbor of the second leaf on the other side of the root is taken for the first
leaf, whose id it has. -/
theorem contains_neighbor_quad :
    (∀ d ∈ fourQuads.toList, InRoot d) ∧ fourQuads.isSorted = .ok true ∧
      (⟨0x20000000, 0, 1⟩ : Quad) ∈ fourQuads.toList ∧
      faceNeighbor (⟨0x20000000, 0, 1⟩ : Quad) 1 = .ok (⟨0x40000000, 0, 1⟩, 0) ∧
      Valid (⟨0x40000000, 0, 1⟩ : Quad) ∧ fourQuads.contains ⟨0x40000000, 0, 1⟩ = .ok true ∧
      (⟨0x40000000, 0, 1⟩ : Quad) ∉ fourQuads.toList := by
  have inRoot : ∀ d ∈ fourQuads.toList, InRoot d := by
    unfold InRoot
    decide
  have sorted : fourQuads.isSorted = .ok true := by rfl
  have valid : Valid (⟨0x40000000, 0, 1⟩ : Quad) := by decide
  have increasing := (isSorted_of_inRoot inRoot).eq_true_iff.mp sorted
  have first : SameId (⟨0, 0, 1⟩ : Quad) ⟨0x40000000, 0, 1⟩ :=
    ⟨1, 0, by rfl, by rfl, by rfl, by rfl⟩
  refine ⟨inRoot, sorted, by decide, by rfl, valid, ?_, by decide⟩
  exact (contains_of_increasing inRoot increasing valid).eq_true ⟨_, by decide, first⟩

theorem contains_root [LawfulIds E] (he : Valid e) (same : SameId root e) :
    (⟨[root]⟩ : Leaves E).contains e = .ok true := by
  have inRoot : ∀ d ∈ [(root : E)], InRoot d := by
    intro d hd
    rw [List.mem_singleton.mp hd]
    exact Descends.here.inRoot
  exact (contains_of_increasing inRoot (List.pairwise_singleton _ _) he).eq_true
    ⟨root, List.mem_singleton_self _, same⟩

/-- In every shape but the line the root has a neighbor that is taken for the root. -/
theorem exists_neighbor_of_root : ∀ s : Shape, s ≠ .line → ∃ (face dual : Nat) (n : s.Carrier),
    faceNeighbor root face = .ok (n, dual) ∧ Valid n ∧ n ≠ root ∧
      (⟨[root]⟩ : Leaves s.Carrier).contains n = .ok true
  | .line, h => absurd rfl h
  | .quad, _ => by
      refine ⟨1, 0, (⟨0x40000000, 0, 0⟩ : Quad), by rfl, by decide, by decide, ?_⟩
      exact contains_root (E := Quad) (by decide) ⟨0, 0, by rfl, by rfl, by rfl, by rfl⟩
  | .triangle, _ => by
      refine ⟨0, 2, (⟨0x20000000, 0, 1, 0⟩ : Triangle), by rfl, by decide, by decide, ?_⟩
      exact contains_root (E := Triangle) (by decide) ⟨0, 0, by rfl, by rfl, by rfl, by rfl⟩
  | .tet, _ => by
      refine ⟨0, 3, (⟨0x200000, 0, 0, 4, 0⟩ : Tet), by rfl, by decide, by decide, ?_⟩
      exact contains_root (E := Tet) (by decide) ⟨0, 0, by rfl, by rfl, by rfl, by rfl⟩
  | .prism, _ => by
      refine ⟨4, 3, (⟨Triangle.root, ⟨0x40000000, 0⟩⟩ : Prism), by rfl, by decide, by decide, ?_⟩
      exact contains_root (E := Prism) (by decide) ⟨0, 0, by rfl, by rfl, by rfl, by rfl⟩

end MeshCurve.Leaves
