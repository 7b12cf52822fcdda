import MeshCurve.Proofs.Curve

/-!
# Elements of one tree

Two elements are kin if some valid element is above both of them.  They stand in one
tree of the forest then: both are valid, and if one of them lies inside the root, so does
the other.  What an element has above and below it is kin to it.
-/

namespace MeshCurve.Element

variable {E : Type} [Element E] {a b c d e p : E} {i k l target : Nat}

def Kin (a b : E) : Prop := ∃ r, Valid r ∧ Below r a ∧ Below r b

theorem Kin.refl (he : Valid e) : Kin e e := ⟨e, he, .refl e, .refl e⟩

theorem Kin.symm (h : Kin a b) : Kin b a := by
  obtain ⟨r, hr, above⟩ := h
  exact ⟨r, hr, above.symm⟩

theorem Kin.of_below (ha : Valid a) (h : Below a b) : Kin a b := ⟨a, ha, .refl a, h⟩

theorem Kin.of_above (h : Valid b ∧ Below b a) : Kin a b := (Kin.of_below h.1 h.2).symm

section

variable [LawfulForest E]

theorem Kin.valid (h : Kin a b) : Valid b := by
  obtain ⟨r, hr, _, below⟩ := h
  exact below.valid hr

theorem Kin.trans (h : Kin a b) (h' : Kin b c) : Kin a c := by
  obtain ⟨r, hr, ha, hb⟩ := h
  obtain ⟨r', hr', hb', hc⟩ := h'
  rcases hb.comparable hr hr' hb' with below | below
  · exact ⟨r, hr, ha, below.trans hc⟩
  · exact ⟨r', hr', below.trans ha, hc⟩

theorem kin_of_child (he : Valid e) (h : child e i = .ok c) : Kin e c := by
  obtain ⟨l, _, hl⟩ := level_of_valid he
  obtain ⟨_, hi⟩ := bounds_of_child h hl
  exact .of_below he ⟨1, i, .single hi h⟩

theorem below_of_parent (he : Valid e) (hl : level e = .ok (l + 1)) (h : parent e = .ok p) :
    Valid p ∧ Below p e := by
  obtain ⟨p', i, hi, up, _, hp, down⟩ := parent_of_valid he hl
  cases h.symm.trans up
  exact ⟨hp, 1, i, .single hi down⟩

end

section

variable [LawfulNavigation E]

theorem below_of_ancestor (he : Valid e) (hl : level e = .ok l) (hle : target ≤ l)
    (h : ancestor e target = .ok a) : Valid a ∧ Below a e := by
  obtain ⟨a', i, up, ha, _, hi⟩ := exists_ancestor_eq he hl hle
  cases h.symm.trans up
  exact ⟨ha, _, i, hi⟩

theorem kin_of_firstDescendant (he : Valid e) (hl : level e = .ok l)
    (bounds : l ≤ target ∧ target ≤ finest E) (h : firstDescendant e target = .ok d) :
    Kin e d := by
  obtain ⟨d', hd, below⟩ := firstDescendant_of_valid he hl bounds.1 bounds.2
  cases h.symm.trans hd
  exact .of_below he ⟨_, _, below⟩

/-- The element that stands for `e` on another level. -/
theorem exists_kin_on_level (he : Valid e) (hl : level e = .ok l) (ht : target ≤ finest E) :
    ∃ s, Kin e s ∧ level s = .ok target ∧ (target ≤ l → ancestor e target = .ok s) ∧
      (l ≤ target → firstDescendant e target = .ok s) := by
  rcases Nat.lt_or_ge target l with hlt | hge
  · obtain ⟨s, i, up, hs, level, hi⟩ := exists_ancestor_eq he hl hlt.le
    refine ⟨s, .of_above ⟨hs, _, i, hi⟩, level, fun _ => up, ?_⟩
    intro hle
    exact absurd hlt (Nat.not_lt.mpr hle)
  · obtain ⟨s, down, first⟩ := firstDescendant_of_valid he hl hge ht
    have level := first.level hl
    rw [Nat.add_sub_cancel' hge] at level
    refine ⟨s, .of_below he ⟨_, _, first⟩, level, ?_, fun _ => down⟩
    intro hle
    obtain rfl := Nat.le_antisymm hle hge
    rw [Nat.sub_self, descends_zero_iff] at first
    rw [first.2]
    exact Descends.here.ancestor he hl

end

theorem Kin.inRoot [LawfulNumbering E] (h : Kin a b) (ha : InRoot a) : InRoot b := by
  refine ⟨h.valid, ?_⟩
  obtain ⟨r, hr, ⟨_, _, da⟩, ⟨_, _, db⟩⟩ := h
  rw [db.isInsideRoot_eq hr, ← da.isInsideRoot_eq hr]
  exact ha.2

theorem inRoot_of_ofLinearId [LawfulNumbering E] (hl : l ≤ finest E) (hi : i < branching E ^ l)
    (h : ofLinearId l i = .ok e) : InRoot e := by
  obtain ⟨d, hd⟩ := exists_descends_root (E := E) hl hi
  cases h.symm.trans (ofLinearId_of_descends hd)
  exact hd.inRoot

/-! ## Last descendants -/

/-- All digits of the last number are last digits. -/
theorem last_append {base : Nat} (hb : 0 < base) (n : Nat) :
    base * (base ^ n - 1) + (base - 1) = base ^ (n + 1) - 1 := by
  obtain ⟨m, hm⟩ : ∃ m, base ^ n = m + 1 := Nat.exists_eq_add_one.mpr (Nat.pow_pos hb)
  rw [pow_succ', hm, Nat.add_sub_cancel, Nat.mul_succ]
  omega

theorem Descends.child_last (h : Descends a k (branching E ^ k - 1) d)
    (hc : Element.child d (branching E - 1) = .ok c) :
    Descends a (k + 1) (branching E ^ (k + 1) - 1) c := by
  have pos := branching_pos E
  have step := h.child (Nat.sub_lt pos Nat.one_pos) hc
  rwa [last_append pos] at step

/-! ## Laws of a walk -/

/-- What a shape has to prove about the calls that lead from one element to others: where
they have a value, and what that has to do with the element. -/
class LawfulWalk (E : Type) [Element E] : Prop extends LawfulCurve E where
  level_of_parent {e p : E} : Valid e → parent e = .ok p → ∃ l, level e = .ok (l + 1)
  le_of_ancestor {e a : E} {l target : Nat} : Valid e → level e = .ok l →
    ancestor e target = .ok a → target ≤ l
  bounds_of_firstDescendant {e d : E} {l target : Nat} : Valid e → level e = .ok l →
    firstDescendant e target = .ok d → l ≤ target ∧ target ≤ finest E
  descends_of_lastDescendant {e d : E} {l target : Nat} : Valid e → level e = .ok l →
    lastDescendant e target = .ok d →
      l ≤ target ∧ Descends e (target - l) (branching E ^ (target - l) - 1) d
  /-- A decoded successor lies in the root, wherever the element was. -/
  successor_of_valid {e d : E} {target : Nat} : Valid e → successor e target = .ok d →
    Kin e d ∨ InRoot d
  nca_of_valid {a b c : E} : Valid a → nca a b = .ok c → Valid c ∧ Below c a
  child_of_childrenAtFace {e c : E} {f : Nat} {cs : List E} : Valid e →
    childrenAtFace e f = .ok cs → c ∈ cs → ∃ i, child e i = .ok c
  lt_of_faceNeighbor {e n : E} {f d : Nat} : faceNeighbor e f = .ok (n, d) →
    f < (shape E).numFaces

export LawfulWalk (level_of_parent le_of_ancestor bounds_of_firstDescendant
  descends_of_lastDescendant successor_of_valid nca_of_valid child_of_childrenAtFace
  lt_of_faceNeighbor)

end MeshCurve.Element
