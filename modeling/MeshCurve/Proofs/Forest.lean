import MeshCurve.Element.Basic
import Mathlib.Tactic.Ring

/-!
# The refinement forest

The valid elements of a shape form a forest, whatever their position: every one of
them below the finest level has `branching` children, and every one that is no root
is a child of its parent.  `Descends a k i d` says that `d` is number `i` among the
descendants of `a` that are `k` levels down.  For a valid `a` these numbers are
exactly those below `branching ^ k`.
-/

namespace MeshCurve.Element

variable {E : Type} [Element E]

abbrev branching (E : Type) [Element E] : Nat := (shape E).numChildren

abbrev finest (E : Type) [Element E] : Nat := (shape E).maxLevel

inductive Descends (a : E) : (k i : Nat) → (d : E) → Prop
  | here : Descends a 0 0 a
  | child {d c : E} {k i j : Nat} : Descends a k i d → j < branching E →
      Element.child d j = .ok c → Descends a (k + 1) (branching E * i + j) c

/-- `b` is `a` or one of its descendants. -/
def Below (a b : E) : Prop := ∃ k i, Descends a k i b

/-- Neither of two elements is below the other. -/
def Apart (a b : E) : Prop := ¬ Below a b ∧ ¬ Below b a

theorem branching_pos (E : Type) [Element E] : 0 < branching E :=
  Nat.lt_trans Nat.one_pos (Shape.numChildren_pos _)

theorem Descends.level {a d : E} {k i l : Nat} (h : Descends a k i d)
    (ha : level a = .ok l) : level d = .ok (l + k) := by
  induction h with
  | here => exact ha
  | child _ _ hc ih =>
      obtain ⟨l', hl', hc'⟩ := level_child hc
      cases ih.symm.trans hl'
      exact hc'

theorem Descends.lt {a d : E} {k i : Nat} (h : Descends a k i d) : i < branching E ^ k := by
  induction h with
  | here => simp
  | @child _ _ k i j _ hj _ ih =>
      calc branching E * i + j < branching E * (i + 1) := by rw [Nat.mul_succ]; omega
        _ ≤ branching E * branching E ^ k := Nat.mul_le_mul_left _ ih
        _ = branching E ^ (k + 1) := (pow_succ' _ _).symm

theorem descends_succ_iff {a c : E} {k i : Nat} :
    Descends a (k + 1) i c ↔
      ∃ d, Descends a k (i / branching E) d ∧ child d (i % branching E) = .ok c := by
  have pos := branching_pos E
  constructor
  · intro h
    cases h with
    | @child d _ _ i j hd hj hc =>
        have quotient : (branching E * i + j) / branching E = i := by
          rw [Nat.mul_add_div pos, Nat.div_eq_of_lt hj, Nat.add_zero]
        have remainder : (branching E * i + j) % branching E = j := by
          rw [Nat.mul_add_mod, Nat.mod_eq_of_lt hj]
        rw [quotient, remainder]
        exact ⟨d, hd, hc⟩
  · rintro ⟨d, hd, hc⟩
    have step := Descends.child hd (Nat.mod_lt i pos) hc
    rwa [Nat.div_add_mod] at step

theorem descends_child_iff {a c : E} {k i j : Nat} (hj : j < branching E) :
    Descends a (k + 1) (branching E * i + j) c ↔
      ∃ d, Descends a k i d ∧ child d j = .ok c := by
  have quotient : (branching E * i + j) / branching E = i := by
    rw [Nat.mul_add_div (branching_pos E), Nat.div_eq_of_lt hj, Nat.add_zero]
  rw [descends_succ_iff, quotient, Nat.mul_add_mod, Nat.mod_eq_of_lt hj]

theorem descends_zero_iff {a d : E} {i : Nat} : Descends a 0 i d ↔ i = 0 ∧ d = a := by
  constructor
  · intro h
    cases h
    exact ⟨rfl, rfl⟩
  · rintro ⟨rfl, rfl⟩
    exact .here

theorem Descends.single {a c : E} {i : Nat} (hi : i < branching E)
    (h : Element.child a i = .ok c) : Descends a 1 i c := by
  simpa using Descends.child .here hi h

theorem descends_one_iff {a c : E} {i : Nat} :
    Descends a 1 i c ↔ i < branching E ∧ Element.child a i = .ok c := by
  constructor
  · intro h
    have hi := h.lt
    rw [pow_one] at hi
    obtain ⟨d, hd, hc⟩ := descends_succ_iff.mp h
    rw [(descends_zero_iff.mp hd).2, Nat.mod_eq_of_lt hi] at hc
    exact ⟨hi, hc⟩
  · rintro ⟨hi, hc⟩
    exact .single hi hc

theorem Descends.trans {a b c : E} {k m i j : Nat} (h : Descends a k i b)
    (h' : Descends b m j c) : Descends a (k + m) (i * branching E ^ m + j) c := by
  induction h' with
  | here => simpa using h
  | @child _ _ m j n _ hn hc ih =>
      have index : branching E * (i * branching E ^ m + j) + n =
          i * branching E ^ (m + 1) + (branching E * j + n) := by ring
      exact index ▸ Descends.child ih hn hc

theorem Descends.unique {a d d' : E} {k i : Nat} (h : Descends a k i d)
    (h' : Descends a k i d') : d = d' := by
  induction k generalizing i d d' with
  | zero =>
      rw [descends_zero_iff] at h h'
      exact h.2.trans h'.2.symm
  | succ k ih =>
      obtain ⟨b, hb, hc⟩ := descends_succ_iff.mp h
      obtain ⟨b', hb', hc'⟩ := descends_succ_iff.mp h'
      cases ih hb hb'
      exact Except.ok.inj (hc.symm.trans hc')

theorem Descends.split {a c : E} {k m i : Nat} (h : Descends a (k + m) i c) :
    ∃ b, Descends a k (i / branching E ^ m) b ∧ Descends b m (i % branching E ^ m) c := by
  induction m generalizing i c with
  | zero => exact ⟨c, by simpa using h, by simpa [Nat.mod_one] using Descends.here (a := c)⟩
  | succ m ih =>
      obtain ⟨d, hd, hc⟩ := descends_succ_iff.mp h
      obtain ⟨b, hb, hbd⟩ := ih hd
      refine ⟨b, ?_, ?_⟩
      · rwa [Nat.div_div_eq_div_mul, ← pow_succ'] at hb
      · have step := Descends.child hbd (Nat.mod_lt i (branching_pos E)) hc
        rwa [Nat.add_comm (branching E * _), ← Nat.mod_mul, ← pow_succ'] at step

theorem Below.refl (a : E) : Below a a := ⟨0, 0, .here⟩

theorem Below.trans {a b c : E} (h : Below a b) (h' : Below b c) : Below a c := by
  obtain ⟨k, i, h⟩ := h
  obtain ⟨m, j, h'⟩ := h'
  exact ⟨k + m, _, h.trans h'⟩

theorem Below.level_le {a b : E} {l m : Nat} (h : Below a b) (ha : level a = .ok l)
    (hb : level b = .ok m) : l ≤ m := by
  obtain ⟨k, i, h⟩ := h
  cases hb.symm.trans (h.level ha)
  omega

theorem Apart.symm {a b : E} (h : Apart a b) : Apart b a := ⟨h.2, h.1⟩

theorem Apart.ne {a b : E} (h : Apart a b) : a ≠ b := by
  rintro rfl
  exact h.1 (.refl a)

/-! ## Children -/

theorem children_ne_nil {e : E} {cs : List E} (h : children e = .ok cs) : cs ≠ [] := by
  rintro rfl
  exact (branching_pos E).ne (length_children h)

theorem one_lt_length_children {e : E} {cs : List E} (h : children e = .ok cs) : 1 < cs.length :=
  (Shape.numChildren_pos _).trans_eq (length_children h).symm

theorem getElem?_children {e : E} {cs : List E} (h : children e = .ok cs) {i : Nat}
    (hi : i < branching E) : ∃ c, cs[i]? = some c ∧ child e i = .ok c :=
  getElem?_of_mapM_eq_ok h (List.getElem?_range hi)

theorem mem_children_iff {e c : E} {cs : List E} (h : children e = .ok cs) :
    c ∈ cs ↔ ∃ i < branching E, child e i = .ok c := by
  constructor
  · intro hc
    obtain ⟨i, hi, hic⟩ := exists_of_mem_of_mapM_eq_ok h hc
    exact ⟨i, List.mem_range.mp hi, hic⟩
  · rintro ⟨i, hi, hic⟩
    obtain ⟨c', hc', hic'⟩ := getElem?_children h hi
    cases hic.symm.trans hic'
    exact List.mem_of_getElem? hc'

theorem pairwise_children {R : E → E → Prop} {e : E} {cs : List E} (h : children e = .ok cs)
    (each : ∀ {i j a b}, i < j → j < branching E → child e i = .ok a → child e j = .ok b → R a b) :
    cs.Pairwise R := by
  rw [List.pairwise_iff_getElem]
  intro i j hi hj less
  have count : cs.length = branching E := length_children h
  obtain ⟨a, ha, first⟩ := getElem?_children h (count ▸ hi)
  obtain ⟨b, hb, second⟩ := getElem?_children h (count ▸ hj)
  rw [(List.getElem?_eq_some_iff.mp ha).2, (List.getElem?_eq_some_iff.mp hb).2]
  exact each less (count ▸ hj) first second

theorem below_of_mem_children {e c : E} {cs : List E} (h : children e = .ok cs)
    (hc : c ∈ cs) : Below e c := by
  obtain ⟨i, hi, hic⟩ := (mem_children_iff h).mp hc
  exact ⟨1, i, .single hi hic⟩

theorem exists_child_below {e d : E} {cs : List E} (h : children e = .ok cs)
    (hd : Below e d) (hne : d ≠ e) : ∃ c ∈ cs, Below c d := by
  obtain ⟨k, i, hd⟩ := hd
  obtain _ | k := k
  · exact absurd (descends_zero_iff.mp hd).2 hne
  · rw [Nat.add_comm] at hd
    obtain ⟨c, hc, hcd⟩ := hd.split
    exact ⟨c, (mem_children_iff h).mpr ⟨_, descends_one_iff.mp hc⟩, _, _, hcd⟩

theorem not_family_of_length_ne {family : List E} (h : family.length ≠ branching E) :
    ¬ ∃ p, Valid p ∧ children p = .ok family := by
  rintro ⟨p, _, hp⟩
  exact h (length_children hp)

theorem not_family_of_level_zero {first : E} {rest : List E} (h : level first = .ok 0) :
    ¬ ∃ p, Valid p ∧ children p = .ok (first :: rest) := by
  rintro ⟨p, _, hp⟩
  obtain ⟨l, _, hl⟩ := level_of_mem_children hp List.mem_cons_self
  cases h.symm.trans hl

/-! ## Valid elements -/

/-- The laws that make the valid elements a forest.  A shape has to prove them;
what follows from them is proved here for every shape. -/
class LawfulForest (E : Type) [Element E] : Prop where
  level_of_valid {e : E} : Valid e → ∃ l ≤ finest E, level e = .ok l
  bounds_of_child {e c : E} {l i : Nat} : child e i = .ok c → level e = .ok l →
    l < finest E ∧ i < branching E
  child_of_valid {e : E} {l i : Nat} : Valid e → level e = .ok l → l < finest E →
    i < branching E →
      ∃ c, child e i = .ok c ∧ Valid c ∧ parent c = .ok e ∧ childId c = .ok i
  parent_of_valid {e : E} {l : Nat} : Valid e → level e = .ok (l + 1) →
    ∃ p i, i < branching E ∧ parent e = .ok p ∧ childId e = .ok i ∧ Valid p ∧
      child p i = .ok e

export LawfulForest (level_of_valid bounds_of_child child_of_valid parent_of_valid)

section

variable [LawfulForest E]

theorem of_child {e c : E} {i : Nat} (he : Valid e) (h : child e i = .ok c) :
    Valid c ∧ parent c = .ok e ∧ childId c = .ok i := by
  obtain ⟨l, _, hl⟩ := level_of_valid he
  obtain ⟨hlt, hi⟩ := bounds_of_child h hl
  obtain ⟨c', hc', laws⟩ := child_of_valid he hl hlt hi
  cases h.symm.trans hc'
  exact laws

theorem Descends.valid {a d : E} {k i : Nat} (h : Descends a k i d) (ha : Valid a) :
    Valid d := by
  induction h with
  | here => exact ha
  | child _ _ hc ih => exact (of_child ih hc).1

theorem Descends.level_le_finest {a d : E} {k i l : Nat} (h : Descends a k i d)
    (ha : Valid a) (hl : Element.level a = .ok l) : l + k ≤ finest E := by
  obtain ⟨l', hle, hl'⟩ := level_of_valid (h.valid ha)
  cases (h.level hl).symm.trans hl'
  exact hle

theorem exists_descends {a : E} {l k i : Nat} (ha : Valid a) (hl : level a = .ok l)
    (hk : l + k ≤ finest E) (hi : i < branching E ^ k) : ∃ d, Descends a k i d := by
  induction k generalizing i with
  | zero =>
      cases Nat.lt_one_iff.mp hi
      exact ⟨a, .here⟩
  | succ k ih =>
      have hq : i / branching E < branching E ^ k :=
        Nat.div_lt_of_lt_mul (by rwa [← pow_succ'])
      obtain ⟨d, hd⟩ := ih (by omega) hq
      obtain ⟨c, hc, _⟩ := child_of_valid (hd.valid ha) (hd.level hl) (by omega)
        (Nat.mod_lt i (branching_pos E))
      exact ⟨c, descends_succ_iff.mpr ⟨d, hd, hc⟩⟩

theorem Descends.climb {a d : E} {k i : Nat} (h : Descends a k i d) (ha : Valid a) :
    climb parent k d = .ok a := by
  induction k generalizing i d with
  | zero => rw [(descends_zero_iff.mp h).2, Element.climb, pure_eq_ok]
  | succ k ih =>
      obtain ⟨b, hb, hc⟩ := descends_succ_iff.mp h
      rw [Element.climb, (of_child (hb.valid ha) hc).2.1, ok_bind]
      exact ih hb

theorem Descends.index_unique {a d : E} {k i i' : Nat} (h : Descends a k i d)
    (h' : Descends a k i' d) (ha : Valid a) : i = i' := by
  induction k generalizing i i' d with
  | zero => exact (descends_zero_iff.mp h).1.trans (descends_zero_iff.mp h').1.symm
  | succ k ih =>
      obtain ⟨b, hb, hc⟩ := descends_succ_iff.mp h
      obtain ⟨b', hb', hc'⟩ := descends_succ_iff.mp h'
      obtain ⟨_, up, digit⟩ := of_child (hb.valid ha) hc
      obtain ⟨_, up', digit'⟩ := of_child (hb'.valid ha) hc'
      cases up.symm.trans up'
      have quotient := ih hb hb'
      have remainder := Except.ok.inj (digit.symm.trans digit')
      rw [← Nat.div_add_mod i (branching E), quotient, remainder, Nat.div_add_mod]

theorem exists_ancestor {d : E} {l k : Nat} (hd : Valid d) (hl : level d = .ok l)
    (hk : k ≤ l) : ∃ a i, Valid a ∧ Descends a k i d := by
  induction k generalizing d l with
  | zero => exact ⟨d, 0, hd, .here⟩
  | succ k ih =>
      obtain ⟨l, rfl⟩ : ∃ l', l = l' + 1 := ⟨l - 1, by omega⟩
      obtain ⟨p, j, hj, _, _, hp, hc⟩ := parent_of_valid hd hl
      obtain ⟨l', hl', hc'⟩ := level_child hc
      cases hl.symm.trans hc'
      obtain ⟨a, i, ha, hi⟩ := ih hp hl' (by omega)
      exact ⟨a, _, ha, .child hi hj hc⟩

theorem exists_root_of_level {d : E} {l : Nat} (hd : Valid d) (hl : level d = .ok l) :
    ∃ r i, Valid r ∧ level r = .ok 0 ∧ Descends r l i d := by
  obtain ⟨r, i, hr, hi⟩ := exists_ancestor hd hl (Nat.le_refl l)
  obtain ⟨l', _, hl'⟩ := level_of_valid hr
  have whole := Except.ok.inj (hl.symm.trans (hi.level hl'))
  obtain rfl : l' = 0 := by omega
  exact ⟨r, i, hr, hl', hi⟩

theorem exists_root {d : E} (hd : Valid d) :
    ∃ r k i, Valid r ∧ level r = .ok 0 ∧ Descends r k i d := by
  obtain ⟨l, _, hl⟩ := level_of_valid hd
  obtain ⟨r, i, root⟩ := exists_root_of_level hd hl
  exact ⟨r, l, i, root⟩

/-! ## Ancestors -/

theorem Below.valid {a b : E} (h : Below a b) (ha : Valid a) : Valid b := by
  obtain ⟨k, i, h⟩ := h
  exact h.valid ha

theorem Below.comparable {a b c : E} (ha : Valid a) (hb : Valid b) (h : Below a c)
    (h' : Below b c) : Below a b ∨ Below b a := by
  obtain ⟨k, i, h⟩ := h
  obtain ⟨m, j, h'⟩ := h'
  rcases Nat.le_total m k with hmk | hkm
  · obtain ⟨n, rfl⟩ := Nat.exists_eq_add_of_le' hmk
    obtain ⟨d, hd, hdc⟩ := h.split
    cases Except.ok.inj ((h'.climb hb).symm.trans (hdc.climb (hd.valid ha)))
    exact .inl ⟨_, _, hd⟩
  · obtain ⟨n, rfl⟩ := Nat.exists_eq_add_of_le' hkm
    obtain ⟨d, hd, hdc⟩ := h'.split
    cases Except.ok.inj ((h.climb ha).symm.trans (hdc.climb (hd.valid hb)))
    exact .inr ⟨_, _, hd⟩

theorem Apart.of_below {e d y : E} (he : Valid e) (hy : Valid y) (h : Apart e y)
    (below : Below e d) : Apart d y := by
  constructor
  · intro under
    exact h.1 (below.trans under)
  · intro under
    rcases below.comparable he hy under with above | above
    · exact h.1 above
    · exact h.2 above

theorem not_below_of_siblings {e a b : E} {i j : Nat} (he : Valid e) (ha : child e i = .ok a)
    (hb : child e j = .ok b) (hij : i ≠ j) : ¬ Below a b := by
  rintro ⟨k, n, h⟩
  obtain ⟨l, hl, hla⟩ := level_child ha
  obtain ⟨l', hl', hlb⟩ := level_child hb
  cases hl.symm.trans hl'
  have same := Except.ok.inj (hlb.symm.trans (h.level hla))
  obtain rfl : k = 0 := by omega
  obtain rfl := (descends_zero_iff.mp h).2
  exact hij (Except.ok.inj ((of_child he ha).2.2.symm.trans (of_child he hb).2.2))

theorem pairwise_apart_children {e : E} {cs : List E} (he : Valid e) (h : children e = .ok cs) :
    cs.Pairwise Apart :=
  pairwise_children h fun less _ ha hb =>
    ⟨not_below_of_siblings he ha hb less.ne, not_below_of_siblings he hb ha less.ne'⟩

/-! ## Families -/

theorem exists_children {e : E} {l : Nat} (he : Valid e) (hl : level e = .ok l)
    (hlt : l < finest E) : ∃ cs, children e = .ok cs := by
  have each : ∀ i ∈ List.range (branching E), ∃ c, child e i = .ok c := fun i hi =>
    let ⟨c, hc, _⟩ := child_of_valid he hl hlt (List.mem_range.mp hi)
    ⟨c, hc⟩
  exact exists_mapM_eq_ok each

theorem valid_of_mem_children {e c : E} {cs : List E} (he : Valid e)
    (h : children e = .ok cs) (hc : c ∈ cs) : Valid c := by
  obtain ⟨i, _, hi⟩ := (mem_children_iff h).mp hc
  exact (of_child he hi).1

theorem level_lt_of_children {e : E} {cs : List E} {l : Nat} (h : children e = .ok cs)
    (hl : level e = .ok l) : l < finest E := by
  obtain ⟨c, _, hc⟩ := getElem?_children h (branching_pos E)
  exact (bounds_of_child hc hl).1

/-- A list that starts with `first` is a family only as the children of its parent. -/
theorem family_iff_of_parent {first p : E} {rest siblings : List E} (hp : Valid p)
    (up : parent first = .ok p) (hs : children p = .ok siblings) :
    (∃ q, Valid q ∧ children q = .ok (first :: rest)) ↔ first :: rest = siblings := by
  constructor
  · rintro ⟨q, hq, h⟩
    obtain ⟨i, _, hi⟩ := (mem_children_iff h).mp List.mem_cons_self
    cases up.symm.trans (of_child hq hi).2.1
    exact Except.ok.inj (h.symm.trans hs)
  · rintro rfl
    exact ⟨p, hp, hs⟩

end

/-! ## Navigation -/

/-- Going several levels at once, and telling families, as single steps would. -/
class LawfulNavigation (E : Type) [Element E] : Prop extends LawfulForest E where
  ancestor_of_valid {e : E} {l target : Nat} : Valid e → level e = .ok l → target ≤ l →
    ancestor e target = climb parent (l - target) e
  firstDescendant_of_valid {e : E} {l target : Nat} : Valid e → level e = .ok l →
    l ≤ target → target ≤ finest E →
      ∃ d, firstDescendant e target = .ok d ∧ Descends e (target - l) 0 d
  isFamily_of_valid {family : List E} : (∀ e ∈ family, Valid e) →
    Decides (isFamily family) (∃ p, Valid p ∧ children p = .ok family)

export LawfulNavigation (ancestor_of_valid firstDescendant_of_valid isFamily_of_valid)

section

variable [LawfulNavigation E]

theorem Descends.ancestor {a d : E} {l k i : Nat} (h : Descends a k i d) (ha : Valid a)
    (hl : Element.level a = .ok l) : ancestor d l = .ok a := by
  rw [ancestor_of_valid (h.valid ha) (h.level hl) (by omega), Nat.add_sub_cancel_left]
  exact h.climb ha

theorem exists_ancestor_eq {e : E} {l target : Nat} (he : Valid e) (hl : level e = .ok l)
    (hle : target ≤ l) : ∃ a i, ancestor e target = .ok a ∧ Valid a ∧ level a = .ok target ∧
      Descends a (l - target) i e := by
  obtain ⟨a, i, ha, hi⟩ := exists_ancestor he hl (Nat.sub_le l target)
  obtain ⟨m, _, hm⟩ := level_of_valid ha
  have levels := Except.ok.inj (hl.symm.trans (hi.level hm))
  obtain rfl : m = target := by omega
  exact ⟨a, i, hi.ancestor ha hm, ha, hm, hi⟩

variable [DecidableEq E]

/-- The test by levels and ancestors decides descent. -/
theorem isAncestor_of_valid {a b : E} (ha : Valid a) (hb : Valid b) :
    Decides (isAncestor a b) (Below a b) := by
  obtain ⟨la, _, hla⟩ := level_of_valid ha
  obtain ⟨lb, _, hlb⟩ := level_of_valid hb
  rw [isAncestor, hla, hlb, ok_bind, ok_bind]
  by_cases hle : la ≤ lb
  · obtain ⟨c, i, up, _, _, hi⟩ := exists_ancestor_eq hb hlb hle
    rw [if_pos hle, up, ok_bind, pure_eq_ok]
    refine decides_of_ok.congr ?_
    constructor
    · rintro rfl
      exact ⟨_, _, hi⟩
    · rintro ⟨k, j, hj⟩
      exact Except.ok.inj (up.symm.trans (hj.ancestor ha hla))
  · rw [if_neg hle, pure_eq_ok]
    exact decides_false fun h => hle (h.level_le hla hlb)

end

end MeshCurve.Element
