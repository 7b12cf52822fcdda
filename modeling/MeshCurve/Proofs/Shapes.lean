import MeshCurve.Element.Any
import MeshCurve.Proofs.Cell.Line
import MeshCurve.Proofs.Cell.PrismCurve
import MeshCurve.Proofs.Cell.Quad
import MeshCurve.Proofs.Cell.Tet

/-!
# Every shape

The five shapes keep the laws of the curve, each by an arithmetic of its own.  Here
they are collected, so that what is proved from the laws can be said of every shape.
-/

namespace MeshCurve

open Element

instance instLawfulCurveCarrier : (s : Shape) → LawfulCurve s.Carrier
  | .line => inferInstanceAs (LawfulCurve Line)
  | .quad => inferInstanceAs (LawfulCurve Quad)
  | .triangle => inferInstanceAs (LawfulCurve Triangle)
  | .tet => inferInstanceAs (LawfulCurve Tet)
  | .prism => inferInstanceAs (LawfulCurve Prism)

theorem branching_carrier (s : Shape) : branching s.Carrier = s.numChildren := by
  rw [branching, shape_carrier]

theorem finest_carrier (s : Shape) : finest s.Carrier = s.maxLevel := by
  rw [finest, shape_carrier]

/-! ## Ids -/

/-- On each level the ids below `numChildren ^ level` stand for the elements inside
the root, one for one, and a finer id of an element is that of its first descendant. -/
theorem ids_bijective (s : Shape) (target : Nat) (ht : target ≤ s.maxLevel) :
    (∀ id < s.numChildren ^ target, ∃ e : s.Carrier, ofLinearId target id = .ok e ∧
      InRoot e ∧ level e = .ok target ∧ linearId e target = .ok id) ∧
    ∀ e : s.Carrier, InRoot e → ∃ l, level e = .ok l ∧ (l ≤ target →
      ∃ id d, linearId e target = .ok id ∧ id < s.numChildren ^ target ∧
        firstDescendant e target = .ok d ∧ ofLinearId target id = .ok d ∧
        (l = target → d = e)) := by
  rw [← finest_carrier] at ht
  rw [← branching_carrier]
  constructor
  · intro id hid
    obtain ⟨e, he⟩ := exists_descends_root (E := s.Carrier) ht hid
    refine ⟨e, ofLinearId_of_descends he, he.inRoot, he.level_of_root, ?_⟩
    rw [linearId_of_descends he ht, idAt_self]
  · intro e inside
    obtain ⟨l, i, he⟩ := inRoot_iff.mp inside
    refine ⟨l, he.level_of_root, ?_⟩
    intro finer
    obtain ⟨d, hd, _, down⟩ := he.exists_idAt ht
    refine ⟨_, d, linearId_of_descends he ht, hd.lt, down finer, ofLinearId_of_descends hd, ?_⟩
    rintro rfl
    rw [idAt_self] at hd
    exact hd.unique he

theorem ids_bijective_tet :
    2 ≤ Shape.maxLevel .tet ∧
    (37 < Shape.numChildren .tet ^ 2 ∧ ∃ e : Tet, ofLinearId 2 37 = .ok e ∧ InRoot e ∧
      level e = .ok 2 ∧ linearId e 2 = .ok 37) ∧
    InRoot (root : Tet) ∧ level (root : Tet) = .ok 0 ∧
      ∃ id d, linearId (root : Tet) 2 = .ok id ∧ id < Shape.numChildren .tet ^ 2 ∧
        firstDescendant (root : Tet) 2 = .ok d ∧ ofLinearId 2 id = .ok d := by
  obtain ⟨decoded, encoded⟩ := ids_bijective .tet 2 (by decide)
  have inside : InRoot (root : Tet) := ⟨by decide, by rfl⟩
  obtain ⟨l, hl, finer⟩ := encoded root inside
  have coarsest : level (root : Tet) = .ok 0 := rfl
  obtain rfl : l = 0 := Except.ok.inj (hl.symm.trans coarsest)
  obtain ⟨id, d, laws⟩ := finer (by decide)
  exact ⟨by decide, ⟨by decide, decoded 37 (by decide)⟩, inside, coarsest, id, d, laws.1,
    laws.2.1, laws.2.2.1, laws.2.2.2.1⟩

/-! ## Succession -/

/-- The step along the curve is the step to the next id; from the last id there is
none. -/
theorem successor_follows_ids (s : Shape) {e : s.Carrier} (he : InRoot e) (target : Nat)
    (coarse : 1 ≤ target) (ht : target ≤ s.maxLevel) :
    ∃ id, linearId e target = .ok id ∧ id < s.numChildren ^ target ∧
      (id + 1 < s.numChildren ^ target → ∃ d, successor e target = .ok d ∧
        ofLinearId target (id + 1) = .ok d ∧ linearId d target = .ok (id + 1)) ∧
      (id + 1 = s.numChildren ^ target → successor e target = .error .contract) := by
  rw [← finest_carrier] at ht
  rw [← branching_carrier]
  obtain ⟨l, i, he⟩ := inRoot_iff.mp he
  have law := successor_of_descends he coarse ht
  unfold SuccessorLaw at law
  refine ⟨_, linearId_of_descends he ht, idAt_lt (branching_pos _) he.lt, ?_, ?_⟩
  · intro room
    rw [if_neg room.ne] at law
    obtain ⟨d, next, hd⟩ := law
    refine ⟨d, next, ofLinearId_of_descends hd, ?_⟩
    rw [linearId_of_descends hd ht, idAt_self]
  · intro last
    rwa [if_pos last] at law

/-- The last child of the root. -/
def lastPrism : Prism := ⟨⟨0x10000000, 0x10000000, 0, 1⟩, ⟨0x20000000, 1⟩⟩

theorem successor_follows_ids_prism :
    InRoot (root : Prism) ∧ (∃ d, successor (root : Prism) 2 = .ok d ∧
      ofLinearId 2 1 = .ok d ∧ linearId d 2 = .ok 1) ∧
    InRoot lastPrism ∧ linearId lastPrism 1 = .ok 7 ∧
      successor lastPrism 1 = .error .contract := by
  have first : InRoot (root : Prism) := ⟨by decide, by rfl⟩
  have last : InRoot lastPrism := ⟨by decide, by rfl⟩
  have zero : linearId (root : Prism) 2 = .ok 0 := by rfl
  have seven : linearId lastPrism 1 = .ok 7 := by rfl
  obtain ⟨i, hi, _, next, _⟩ := successor_follows_ids .prism first 2 (by decide) (by decide)
  obtain ⟨j, hj, _, _, none⟩ := successor_follows_ids .prism last 1 (by decide) (by decide)
  obtain rfl : i = 0 := Except.ok.inj (hi.symm.trans zero)
  obtain rfl : j = 7 := Except.ok.inj (hj.symm.trans seven)
  exact ⟨first, next (by decide), last, seven, none (by decide)⟩

/-! ## The root -/

/-- The test on the corners against the faces of the root accepts the elements whose
topmost ancestor is the root, which are those the tree has below it. -/
theorem isInsideRoot_iff_ancestor (s : Shape) {e : s.Carrier} (he : Valid e) :
    ∃ inside r, isInsideRoot e = .ok inside ∧ ancestor e 0 = .ok r ∧
      (inside = true ↔ r = root) ∧ (inside = true ↔ Below root e) := by
  obtain ⟨inside, test, below⟩ := isInsideRoot_of_valid he
  obtain ⟨r, up, top⟩ := exists_ancestor_zero he
  exact ⟨inside, r, test, up, below.trans top.symm, below⟩

/-- A tet of the cube beside the root's, whose far corner does not fit a word. -/
def outerTet : Tet := ⟨0x7ff00000, -0x100000, 0, 3, 1⟩

theorem isInsideRoot_iff_ancestor_tet :
    Valid outerTet ∧ ∃ inside r, isInsideRoot outerTet = .ok inside ∧
      ancestor outerTet 0 = .ok r ∧ r = ⟨0x7fe00000, -0x200000, 0, 2, 0⟩ ∧ inside = false := by
  have valid : Valid outerTet := by decide
  have up : ancestor outerTet 0 = .ok ⟨0x7fe00000, -0x200000, 0, 2, 0⟩ := by rfl
  obtain ⟨inside, r, test, top, iff, _⟩ := isInsideRoot_iff_ancestor .tet valid
  obtain rfl : r = ⟨0x7fe00000, -0x200000, 0, 2, 0⟩ := Except.ok.inj (top.symm.trans up)
  refine ⟨valid, inside, _, test, up, rfl, ?_⟩
  rw [Bool.eq_false_iff, ne_eq, iff]
  decide

end MeshCurve
