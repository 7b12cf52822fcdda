import MeshCurve.Proofs.Adapt.Changes
import MeshCurve.Proofs.Shapes

/-!
# Families

The tests for a family rebuild the siblings of its first element, or compare the elements
with each other; none of them looks for a parent.  What they accept is what a single element
is cut up into, and the two changes between that element and its family are each other's
reverse.
-/

namespace MeshCurve.Element

variable {E : Type} [Element E] {p q : E} {family : List E}

/-- `family` is what `p` is cut up into. -/
structure FamilyOf (p : E) (family : List E) : Prop where
  valid : Valid p
  coarse : ∃ l < finest E, level p = .ok l
  cut : children p = .ok family

section

variable [LawfulForest E]

theorem familyOf_iff : FamilyOf p family ↔ Valid p ∧ children p = .ok family := by
  constructor
  · exact fun h => ⟨h.valid, h.cut⟩
  · rintro ⟨hp, cut⟩
    obtain ⟨l, _, hl⟩ := level_of_valid hp
    exact ⟨hp, ⟨l, level_lt_of_children cut hl, hl⟩, cut⟩

theorem FamilyOf.exists_first (h : FamilyOf p family) :
    ∃ first rest, family = first :: rest ∧ parent first = .ok p := by
  obtain ⟨first, rest, rfl⟩ := List.exists_cons_of_ne_nil (children_ne_nil h.cut)
  obtain ⟨i, _, down⟩ := (mem_children_iff h.cut).mp List.mem_cons_self
  exact ⟨first, rest, rfl, (of_child h.valid down).2.1⟩

theorem FamilyOf.unique (hp : FamilyOf p family) (hq : FamilyOf q family) : p = q := by
  obtain ⟨first, rest, rfl, up⟩ := hp.exists_first
  obtain ⟨_, _, head, up'⟩ := hq.exists_first
  cases head
  exact Except.ok.inj (up.symm.trans up')

end

theorem isFamily_decides_familyOf [LawfulNavigation E] (h : ∀ e ∈ family, Valid e) :
    Decides (isFamily family) (∃ p, FamilyOf p family) :=
  (isFamily_of_valid h).congr (exists_congr fun _ => familyOf_iff.symm)

end MeshCurve.Element

/-! ## The changes of a family -/

namespace MeshCurve.Adapt.Transition

open Element

variable {E : Type} [Element E] {p : E} {family : List E}

theorem refine?_eq (h : FamilyOf p family) :
    refine? p = .ok (some ⟨.refine, p, family, [p]⟩) := by
  obtain ⟨l, coarse, hl⟩ := h.coarse
  rw [refine?, hl, ok_bind, if_neg (Nat.not_le.mpr coarse), h.cut]
  rfl

theorem coarsen?_eq_none (h : isFamily family = .ok false) : coarsen? family = .ok none := by
  unfold coarsen?
  rw [h]
  rfl

end MeshCurve.Adapt.Transition

/-! ## Elements of any shape -/

namespace MeshCurve.AnyElement

open Element

theorem mapM_as?_eq_some_iff {s : Shape} {family : List AnyElement} {elements : List s.Carrier} :
    family.mapM (as? s) = some elements ↔ family = elements.map (⟨s, ·⟩) := by
  induction family generalizing elements with
  | nil => cases elements <;> simp
  | cons e family ih =>
      cases elements <;> simp [List.mapM_cons, Option.bind_eq_some_iff, ih, as?_eq_some_iff]

theorem isFamily_decides {family : List AnyElement} (h : ∀ e ∈ family, e.Valid) :
    Decides (isFamily family) (∃ (s : Shape) (elements : List s.Carrier) (p : s.Carrier),
      family = elements.map (⟨s, ·⟩) ∧ FamilyOf p elements) := by
  cases family with
  | nil =>
      refine decides_false ?_
      rintro ⟨s, elements, p, empty, hp⟩
      exact children_ne_nil hp.cut (List.map_eq_nil_iff.mp empty.symm)
  | cons first rest =>
      -- The first element settles which shape the others have to be of.
      have shaped {s : Shape} {elements : List s.Carrier}
          (split : first :: rest = elements.map (⟨s, ·⟩)) : first.shape = s := by
        cases elements with
        | nil => cases split
        | cons x elements => rw [(List.cons.inj split).1]
      rw [isFamily]
      cases found : (first :: rest).mapM (as? first.shape) with
      | none =>
          refine decides_false ?_
          rintro ⟨s, elements, p, split, _⟩
          obtain rfl := shaped split
          cases found.symm.trans (mapM_as?_eq_some_iff.mpr split)
      | some elements =>
          have split := mapM_as?_eq_some_iff.mp found
          have valid : ∀ x ∈ elements, Element.Valid x := fun x hx =>
            h ⟨first.shape, x⟩ (split ▸ List.mem_map_of_mem hx)
          refine (isFamily_decides_familyOf valid).congr ?_
          constructor
          · rintro ⟨p, hp⟩
            exact ⟨first.shape, elements, p, split, hp⟩
          · rintro ⟨s, others, p, split', hp⟩
            obtain rfl := shaped split'
            have same := found.symm.trans (mapM_as?_eq_some_iff.mpr split')
            rw [Option.some.inj same]
            exact ⟨p, hp⟩

end MeshCurve.AnyElement

namespace MeshCurve

open Element Adapt

/-- The elements that pass the test for a family are the children of one element, the parent
of the first of them.  They can be merged into it, which reverses its refinement, and no other
elements can be merged. -/
theorem isFamily_iff_children (s : Shape) :
    (∀ family : List s.Carrier, (∀ e ∈ family, Valid e) →
      Decides (isFamily family) (∃ p, FamilyOf p family) ∧
      ((¬ ∃ p, FamilyOf p family) → Transition.coarsen? family = .ok none) ∧
      ∀ p, FamilyOf p family → (∀ q, FamilyOf q family → q = p) ∧
        (∃ first, family.head? = some first ∧ parent first = .ok p) ∧
        Transition.coarsen? family = .ok (some ⟨.coarsen, p, [p], family⟩) ∧
        Transition.refine? p = .ok (some ⟨.refine, p, family, [p]⟩)) ∧
    ∀ family : List AnyElement, (∀ e ∈ family, e.Valid) →
      Decides (AnyElement.isFamily family) (∃ (t : Shape) (elements : List t.Carrier)
        (p : t.Carrier), family = elements.map (⟨t, ·⟩) ∧ FamilyOf p elements) := by
  refine ⟨?_, fun family => AnyElement.isFamily_decides⟩
  intro family valid
  have decides := isFamily_decides_familyOf valid
  refine ⟨decides, fun none => Transition.coarsen?_eq_none (decides.eq_false none), ?_⟩
  intro p hp
  obtain ⟨first, rest, rfl, up⟩ := hp.exists_first
  exact ⟨fun q hq => hq.unique hp, ⟨first, rfl, up⟩, coarsen?_eq hp.valid hp.cut,
    Transition.refine?_eq hp⟩

/-- The children of a triangle of type 1 to the left of the root. -/
def quarters : List Triangle :=
  [⟨-0x10000000, 0, 1, 2⟩, ⟨-0x10000000, 0x8000000, 0, 2⟩, ⟨-0x10000000, 0x8000000, 1, 2⟩,
    ⟨-0x8000000, 0x8000000, 1, 2⟩]

theorem isFamily_iff_children_triangle :
    (∀ e ∈ quarters, Valid e) ∧ isFamily quarters = .ok true ∧
    Transition.coarsen? quarters =
      .ok (some ⟨.coarsen, ⟨-0x10000000, 0, 1, 1⟩, [⟨-0x10000000, 0, 1, 1⟩], quarters⟩) ∧
    Transition.coarsen? quarters.reverse = .ok none ∧
    AnyElement.isFamily (quarters.map (⟨.triangle, ·⟩)) = .ok true := by
  have valid : ∀ e ∈ quarters, Valid e := by decide
  have family : FamilyOf (⟨-0x10000000, 0, 1, 1⟩ : Triangle) quarters :=
    ⟨by decide, ⟨1, by decide, rfl⟩, by rfl⟩
  obtain ⟨one, any⟩ := isFamily_iff_children .triangle
  obtain ⟨decides, _, merged⟩ := one quarters valid
  obtain ⟨turned, others, _⟩ := one quarters.reverse (by decide)
  refine ⟨valid, decides.eq_true ⟨_, family⟩, (merged _ family).2.2.1, others ?_, ?_⟩
  · rw [← turned.eq_true_iff]
    decide
  · refine (any _ ?_).eq_true ⟨.triangle, quarters, _, rfl, family⟩
    intro e he
    obtain ⟨x, hx, rfl⟩ := List.mem_map.mp he
    exact valid x hx

end MeshCurve
