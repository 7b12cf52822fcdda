import MeshCurve.Proofs.Digit.Radix
import MeshCurve.Proofs.Extent
import MeshCurve.Proofs.Shapes

/-!
# The digits of an id

The id of an element is the way down to it: digit `k` is the number of its ancestor of
level `k` among the children of that ancestor's parent.  Taken on a finer level the id
goes on with zeros, and without its last digits it is the id of an ancestor.  A digit
of a prism's id pairs those of the ids of its factors.
-/

namespace MeshCurve.Element

variable {E : Type} [Element E]

/-! ## Reading digits -/

theorem idAt_idAt {base level i mid target : Nat} (hb : 0 < base) (h : target ≤ mid) :
    idAt base mid (idAt base level i mid) target = idAt base level i target := by
  rw [idAt_of_le h]
  rcases Nat.le_total mid level with hml | hlm
  · have exponent : level - target = level - mid + (mid - target) := by omega
    rw [idAt_of_le hml, idAt_of_le (h.trans hml), Nat.div_div_eq_div_mul, exponent, pow_add]
  rw [idAt_of_ge hlm]
  rcases Nat.le_total target level with htl | hlt
  · have exponent : mid - target = mid - level + (level - target) := by omega
    rw [idAt_of_le htl, exponent, pow_add, ← Nat.div_div_eq_div_mul,
      Nat.mul_div_cancel _ (Nat.pow_pos hb)]
  · have exponent : mid - level = target - level + (mid - target) := by omega
    rw [idAt_of_ge hlt, exponent, pow_add, ← Nat.mul_assoc, Nat.mul_div_cancel _ (Nat.pow_pos hb)]

/-- Below its own level an id has zeros. -/
theorem idAt_mod_of_lt {base level i k : Nat} (h : level < k) : idAt base level i k % base = 0 := by
  have exponent : k - level = k - level - 1 + 1 := by omega
  rw [idAt_of_ge h.le, exponent, pow_succ, ← Nat.mul_assoc, Nat.mul_mod_left]

theorem localDigit_eq {id target k : Nat} (h1 : 1 ≤ k) (hk : k ≤ target)
    (ht : target ≤ finest E) :
    Radix.localDigit id (branching E) target k =
      .ok (idAt (branching E) target id k % branching E) := by
  have scale : Radix.pow (branching E) (target - k) = .ok (branching E ^ (target - k)) :=
    pow_eq_ok ((Nat.sub_le _ _).trans ht)
  rw [Radix.localDigit_eq (branching_pos E) h1 hk scale, idAt_of_le hk]

/-! ## Elements -/

/-- Digit by digit, `id` is the way down to `e`, an element of level `l`, as seen on
level `target`. -/
structure Spells (e : E) (l target id : Nat) : Prop where
  digit_of_ancestor {k : Nat} : 1 ≤ k → k ≤ min target l →
    ∃ a i, ancestor e k = .ok a ∧ childId a = .ok i ∧
      Radix.localDigit id (branching E) target k = .ok i
  digit_of_finer {k : Nat} : l < k → k ≤ target →
    Radix.localDigit id (branching E) target k = .ok 0
  id_of_ancestor {k : Nat} : k ≤ min target l →
    ∃ a, ancestor e k = .ok a ∧ linearId a k = .ok (id / branching E ^ (target - k))

theorem localDigit_idAt {l i target k : Nat} (h1 : 1 ≤ k) (hk : k ≤ target)
    (ht : target ≤ finest E) :
    Radix.localDigit (idAt (branching E) l i target) (branching E) target k =
      .ok (idAt (branching E) l i k % branching E) := by
  rw [localDigit_eq h1 hk ht, idAt_idAt (branching_pos E) hk]

section

variable [LawfulNumbering E] {e : E} {l i target k : Nat}

theorem Descends.childId_of_root (h : Descends root (k + 1) i e) :
    childId e = .ok (i % branching E) := by
  obtain ⟨p, hp, he⟩ := descends_succ_iff.mp h
  exact (of_child hp.valid_of_root he).2.2

theorem Descends.spells (h : Descends root l i e) (ht : target ≤ finest E) :
    Spells e l target (idAt (branching E) l i target) where
  digit_of_ancestor {k} h1 hk := by
    obtain ⟨hkt, hkl⟩ := Nat.le_min.mp hk
    obtain ⟨a, ha, up, _⟩ := h.exists_idAt (hkt.trans ht)
    obtain ⟨k, rfl⟩ : ∃ m, k = m + 1 := ⟨k - 1, by omega⟩
    exact ⟨a, _, up hkl, ha.childId_of_root, localDigit_idAt h1 hkt ht⟩
  digit_of_finer {k} hlk hkt := by
    rw [localDigit_idAt (by omega) hkt ht, idAt_mod_of_lt hlk]
  id_of_ancestor {k} hk := by
    obtain ⟨hkt, hkl⟩ := Nat.le_min.mp hk
    obtain ⟨a, ha, up, _⟩ := h.exists_idAt (hkt.trans ht)
    refine ⟨a, up hkl, ?_⟩
    rw [linearId_of_descends ha (hkt.trans ht), idAt_self, ← idAt_of_le hkt,
      idAt_idAt (branching_pos E) hkt]

end

end MeshCurve.Element

/-! ## Prisms -/

namespace MeshCurve.Prism

open Element

variable {e : Prism} {l i target : Nat}

/-- Every digit of a prism's id is a pair. -/
theorem exists_factor_digits (h : Descends root l i e) (ht : target ≤ depth) :
    ∃ t m, Element.linearId e.tri target = .ok t ∧ Element.linearId e.line target = .ok m ∧
      ∀ k, 1 ≤ k → k ≤ target → ∃ x y, Radix.localDigit t 4 target k = .ok x ∧
        Radix.localDigit m 2 target k = .ok y ∧
        Radix.localDigit (idAt 8 l i target) 8 target k = .ok (x + 4 * y) := by
  obtain ⟨t, m, rfl, htri, hline⟩ := factors_of_descends h
  have bound : target ≤ 21 := ht
  have inTri : target ≤ finest Triangle := show target ≤ 29 by omega
  have inLine : target ≤ finest Line := show target ≤ 30 by omega
  refine ⟨_, _, linearId_of_descends htri inTri, linearId_of_descends hline inLine, ?_⟩
  intro k h1 hk
  refine ⟨_, _, localDigit_idAt (E := Triangle) h1 hk inTri,
    localDigit_idAt (E := Line) h1 hk inLine, (localDigit_idAt (E := Prism) h1 hk ht).trans ?_⟩
  obtain ⟨k, rfl⟩ : ∃ n, k = n + 1 := ⟨k - 1, by omega⟩
  have pair := Radix.weave_succ_mod (show 0 < 4 by decide) (show 0 < 2 by decide) k
    (idAt 4 l t (k + 1)) (idAt 2 l m (k + 1))
  rw [Radix.weave_idAt (by decide) (by decide)] at pair
  exact congrArg Except.ok pair

end MeshCurve.Prism

namespace MeshCurve

open Element

/-! ## Every shape -/

/-- The id of an element is its path, on coarser and on finer levels than its own, and
that of a prism is made of its factors' ids digit by digit. -/
theorem linearId_spells_path :
    (∀ (s : Shape) (e : s.Carrier), InRoot e → ∀ target ≤ s.maxLevel, ∃ l id,
      level e = .ok l ∧ linearId e target = .ok id ∧ Spells e l target id) ∧
    ∀ e : Prism, InRoot e → ∀ target ≤ Shape.maxLevel .prism, ∃ id t m,
      linearId e target = .ok id ∧ linearId e.tri target = .ok t ∧
        linearId e.line target = .ok m ∧
        ∀ k, 1 ≤ k → k ≤ target → ∃ x y, Radix.localDigit t 4 target k = .ok x ∧
          Radix.localDigit m 2 target k = .ok y ∧
          Radix.localDigit id 8 target k = .ok (x + 4 * y) := by
  constructor
  · intro s e inside target ht
    rw [← finest_carrier] at ht
    obtain ⟨l, i, he⟩ := inRoot_iff.mp inside
    exact ⟨l, _, he.level_of_root, linearId_of_descends he ht, he.spells ht⟩
  · intro e inside target ht
    obtain ⟨l, i, he⟩ := inRoot_iff.mp inside
    obtain ⟨t, m, idT, idM, digits⟩ := Prism.exists_factor_digits he ht
    exact ⟨_, t, m, linearId_of_descends he ht, idT, idM, digits⟩

/-- The last child of the root, seen on level two: its number, then a zero. -/
theorem linearId_spells_path_prism :
    InRoot lastPrism ∧ linearId lastPrism 2 = .ok 56 ∧ Spells lastPrism 1 2 56 ∧
      linearId lastPrism.tri 2 = .ok 12 ∧ linearId lastPrism.line 2 = .ok 2 ∧
      ∃ x y, Radix.localDigit 12 4 2 1 = .ok x ∧ Radix.localDigit 2 2 2 1 = .ok y ∧
        Radix.localDigit 56 8 2 1 = .ok (x + 4 * y) := by
  have inside : InRoot lastPrism := ⟨by decide, by rfl⟩
  have own : level lastPrism = .ok 1 := rfl
  have id : linearId lastPrism 2 = .ok 56 := by rfl
  have idT : linearId lastPrism.tri 2 = .ok 12 := by rfl
  have idM : linearId lastPrism.line 2 = .ok 2 := by rfl
  obtain ⟨spelled, paired⟩ := linearId_spells_path
  obtain ⟨l, i, hl, hi, path⟩ := spelled .prism lastPrism inside 2 (by decide)
  obtain rfl : l = 1 := Except.ok.inj (hl.symm.trans own)
  obtain rfl : i = 56 := Except.ok.inj (hi.symm.trans id)
  obtain ⟨j, t, m, hj, ht, hm, digits⟩ := paired lastPrism inside 2 (by decide)
  obtain rfl : j = 56 := Except.ok.inj (hj.symm.trans id)
  obtain rfl : t = 12 := Except.ok.inj (ht.symm.trans idT)
  obtain rfl : m = 2 := Except.ok.inj (hm.symm.trans idM)
  exact ⟨inside, id, path, idT, idM, digits 1 (by decide) (by decide)⟩

end MeshCurve
