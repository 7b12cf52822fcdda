import MeshCurve.Proofs.Extent
import MeshCurve.Proofs.Shapes
import Mathlib.Data.List.Infix

/-!
# Curve order is pre-order

The path of an element lists the child numbers on the way down to it.  The elements
below a child all come before those below a later child, and an element comes before
everything below it.  So the order along the curve is the lexicographic order of the
paths, and it is a total order because that one is.
-/

namespace MeshCurve

/-! ## Paths -/

/-- Whether a path comes first in pre-order: it is a proper prefix of the other, or has
the smaller number where the two part. -/
def Precedes (p q : List Nat) : Prop :=
  (p <+: q ∧ p ≠ q) ∨ ∃ r i j, i < j ∧ r ++ [i] <+: p ∧ r ++ [j] <+: q

theorem precedes_cons_iff {i j : Nat} {p q : List Nat} :
    Precedes (i :: p) (j :: q) ↔ i < j ∨ i = j ∧ Precedes p q := by
  constructor
  · rintro (⟨hpre, hne⟩ | ⟨r, a, b, hab, hp, hq⟩)
    · obtain ⟨rfl, rest⟩ := List.cons_prefix_cons.mp hpre
      exact .inr ⟨rfl, .inl ⟨rest, fun h => hne (h ▸ rfl)⟩⟩
    · cases r with
      | nil =>
          obtain ⟨rfl, _⟩ := List.cons_prefix_cons.mp hp
          obtain ⟨rfl, _⟩ := List.cons_prefix_cons.mp hq
          exact .inl hab
      | cons x r =>
          obtain ⟨rfl, hp'⟩ := List.cons_prefix_cons.mp hp
          obtain ⟨rfl, hq'⟩ := List.cons_prefix_cons.mp hq
          exact .inr ⟨rfl, .inr ⟨r, a, b, hab, hp', hq'⟩⟩
  · rintro (hlt | ⟨rfl, ⟨hpre, hne⟩ | ⟨r, a, b, hab, hp, hq⟩⟩)
    · exact .inr ⟨[], i, j, hlt, by simp, by simp⟩
    · exact .inl ⟨List.cons_prefix_cons.mpr ⟨rfl, hpre⟩, fun h => hne (List.cons.inj h).2⟩
    · exact .inr ⟨i :: r, a, b, hab, List.cons_prefix_cons.mpr ⟨rfl, hp⟩,
        List.cons_prefix_cons.mpr ⟨rfl, hq⟩⟩

theorem not_precedes_nil (p : List Nat) : ¬ Precedes p [] := by
  rintro (⟨hpre, hne⟩ | ⟨r, _, _, _, _, hq⟩)
  · exact hne (List.prefix_nil.mp hpre)
  · simp at hq

theorem precedes_iff {p q : List Nat} : Precedes p q ↔ compare p q = .lt := by
  induction p generalizing q with
  | nil =>
      cases q with
      | nil => simpa using not_precedes_nil []
      | cons j q =>
          rw [List.compare_nil_cons]
          exact iff_of_true (.inl ⟨List.nil_prefix, by simp⟩) rfl
  | cons i p ih =>
      cases q with
      | nil =>
          rw [List.compare_cons_nil]
          exact iff_of_false (not_precedes_nil _) (by decide)
      | cons j q =>
          rw [precedes_cons_iff, ih, List.compare_cons_cons, Ordering.then_eq_lt,
            Nat.compare_eq_lt, Nat.compare_eq_eq]

/-- The paths go apart, and the first one takes the smaller number there. -/
def Parts (p q : List Nat) : Prop := ∃ r i j, i < j ∧ r ++ [i] <+: p ∧ r ++ [j] <+: q

theorem Parts.precedes {p q : List Nat} (h : Parts p q) : Precedes p q := .inr h

theorem Parts.append {p q : List Nat} (h : Parts p q) (x : List Nat) : Parts (p ++ x) q := by
  obtain ⟨r, i, j, less, hp, hq⟩ := h
  exact ⟨r, i, j, less, hp.trans (List.prefix_append p x), hq⟩

theorem Parts.append_right {p q : List Nat} (h : Parts p q) (x : List Nat) : Parts p (q ++ x) := by
  obtain ⟨r, i, j, less, hp, hq⟩ := h
  exact ⟨r, i, j, less, hp, hq.trans (List.prefix_append q x)⟩

theorem parts_cons {i j : Nat} (h : i < j) (p q : List Nat) : Parts (i :: p) (j :: q) :=
  ⟨[], i, j, h, by simp, by simp⟩

theorem parts_append {i j : Nat} (p : List Nat) (h : i < j) : Parts (p ++ [i]) (p ++ [j]) :=
  ⟨p, i, j, h, List.prefix_rfl, List.prefix_rfl⟩

theorem precedes_append (p : List Nat) (i : Nat) : Precedes p (p ++ [i]) :=
  .inl ⟨List.prefix_append p [i], by simp⟩

theorem Precedes.append {p q : List Nat} (h : Precedes p q) (i : Nat) : Precedes p (q ++ [i]) := by
  rcases h with ⟨within, _⟩ | ⟨r, a, b, less, hp, hq⟩
  · refine .inl ⟨within.trans (List.prefix_append q [i]), ?_⟩
    rintro rfl
    have := within.length_le
    rw [List.length_append, List.length_singleton] at this
    omega
  · exact .inr ⟨r, a, b, less, hp, hq.trans (List.prefix_append q [i])⟩

theorem not_precedes_self (p : List Nat) : ¬ Precedes p p := by
  simp [precedes_iff]

/-! ## Total orders -/

/-- A comparison that orders the members of a kind totally, and never fails on them. -/
structure TotallyOrders {α : Type} (kind : α → Prop) (cmp : α → α → Except Fault Ordering) :
    Prop where
  swap {a b : α} : kind a → kind b → ∃ o, cmp a b = .ok o ∧ cmp b a = .ok o.swap
  eq_iff {a b : α} : kind a → kind b → (cmp a b = .ok .eq ↔ a = b)
  trans {a b c : α} : kind a → kind b → kind c → cmp a b = .ok .lt → cmp b c = .ok .lt →
    cmp a c = .ok .lt

theorem totallyOrders_of_key {α : Type} {kind : α → Prop}
    {cmp : α → α → Except Fault Ordering} (Key : α → List Nat → Prop)
    (exists_key : ∀ {a}, kind a → ∃ p, Key a p)
    (unique : ∀ {a b p}, Key a p → Key b p → a = b)
    (cmp_eq : ∀ {a b p q}, Key a p → Key b q → cmp a b = .ok (compare p q)) :
    TotallyOrders kind cmp where
  swap ha hb := by
    obtain ⟨p, hp⟩ := exists_key ha
    obtain ⟨q, hq⟩ := exists_key hb
    exact ⟨_, cmp_eq hp hq, (cmp_eq hq hp).trans (congrArg _ Std.OrientedCmp.eq_swap)⟩
  eq_iff {a b} ha hb := by
    obtain ⟨p, hp⟩ := exists_key ha
    obtain ⟨q, hq⟩ := exists_key hb
    rw [cmp_eq hp hq, Except.ok.injEq, Std.compare_eq_iff_eq]
    constructor
    · rintro rfl
      exact unique hp hq
    · rintro rfl
      have same : compare p q = compare p p :=
        Except.ok.inj ((cmp_eq hp hq).symm.trans (cmp_eq hp hp))
      rw [Std.compare_self] at same
      exact Std.compare_eq_iff_eq.mp same
  trans {a b c} ha hb hc hab hbc := by
    obtain ⟨p, hp⟩ := exists_key ha
    obtain ⟨q, hq⟩ := exists_key hb
    obtain ⟨r, hr⟩ := exists_key hc
    rw [cmp_eq hp hq, Except.ok.injEq] at hab
    rw [cmp_eq hq hr, Except.ok.injEq] at hbc
    rw [cmp_eq hp hr, Except.ok.injEq]
    exact Std.TransCmp.lt_trans hab hbc

section

variable {α : Type} {kind : α → Prop} {cmp : α → α → Except Fault Ordering} {a b c : α}

theorem TotallyOrders.gt_of_lt (h : TotallyOrders kind cmp) (ha : kind a) (hb : kind b)
    (less : cmp a b = .ok .lt) : cmp b a = .ok .gt := by
  obtain ⟨o, ho, back⟩ := h.swap ha hb
  cases less.symm.trans ho
  exact back

/-- What does not come after the first of two comes before the second. -/
theorem TotallyOrders.lt_or_gt (h : TotallyOrders kind cmp) (ha : kind a) (hb : kind b)
    (hc : kind c) (less : cmp a b = .ok .lt) : cmp a c = .ok .lt ∨ cmp b c = .ok .gt := by
  obtain ⟨o, ho, back⟩ := h.swap ha hc
  cases o with
  | lt => exact .inl ho
  | eq =>
      obtain rfl := (h.eq_iff ha hc).mp ho
      exact .inr (h.gt_of_lt ha hb less)
  | gt => exact .inr (h.gt_of_lt hc hb (h.trans hc ha hb back less))

end

namespace Element

variable {E : Type} [Element E]

/-- The child numbers of the ancestors of an element, from the first level down to the
element itself. -/
def path (e : E) : Except Fault (List Nat) := do
  let l ← level e
  (List.range' 1 l).mapM fun k => do
    let a ← ancestor e k
    childId a

/-- Going down from `a` by these child numbers leads to `b`. -/
inductive Leads : E → List Nat → E → Prop
  | here {a : E} : Leads a [] a
  | down {a c b : E} {i : Nat} {p : List Nat} : i < branching E → child a i = .ok c →
      Leads c p b → Leads a (i :: p) b

theorem leads_nil_iff {a b : E} : Leads a [] b ↔ b = a := by
  constructor
  · intro h
    cases h
    rfl
  · rintro rfl
    exact .here

theorem leads_cons_iff {a b : E} {i : Nat} {p : List Nat} :
    Leads a (i :: p) b ↔ i < branching E ∧ ∃ c, child a i = .ok c ∧ Leads c p b := by
  constructor
  · intro h
    cases h with
    | down hi hc h => exact ⟨hi, _, hc, h⟩
  · rintro ⟨hi, c, hc, h⟩
    exact .down hi hc h

theorem Leads.snoc {a b c : E} {i : Nat} {p : List Nat} (h : Leads a p b)
    (hi : i < branching E) (hc : child b i = .ok c) : Leads a (p ++ [i]) c := by
  induction h with
  | here => exact .down hi hc .here
  | down hj hd _ ih => exact .down hj hd (ih hc)

theorem Leads.unique {a b b' : E} {p : List Nat} (h : Leads a p b) (h' : Leads a p b') :
    b = b' := by
  induction h with
  | here => exact (leads_nil_iff.mp h').symm
  | down _ hc _ ih =>
      obtain ⟨_, c, hc', h'⟩ := leads_cons_iff.mp h'
      cases hc.symm.trans hc'
      exact ih h'

theorem Leads.exists_descends {a b : E} {p : List Nat} (h : Leads a p b) :
    ∃ i, Descends a p.length i b := by
  induction h with
  | here => exact ⟨0, .here⟩
  | down hi hc _ ih =>
      obtain ⟨j, hj⟩ := ih
      have whole := (Descends.single hi hc).trans hj
      rw [Nat.add_comm] at whole
      exact ⟨_, whole⟩

theorem Leads.isBelow {a b : E} {p : List Nat} (h : Leads a p b) : Below a b :=
  ⟨p.length, h.exists_descends⟩

theorem Below.exists_leads {a b : E} (h : Below a b) : ∃ p, Leads a p b := by
  obtain ⟨k, i, h⟩ := h
  induction h with
  | here => exact ⟨[], .here⟩
  | child _ hj hc ih =>
      obtain ⟨p, hp⟩ := ih
      exact ⟨_, hp.snoc hj hc⟩

section

variable [LawfulNavigation E]

theorem Leads.mapM_childId {a b : E} {l : Nat} {p : List Nat} (ha : Valid a)
    (hl : level a = .ok l) (h : Leads a p b) :
    ((List.range' (l + 1) p.length).mapM fun k => do
      let d ← ancestor b k
      childId d) = .ok p := by
  induction h generalizing l with
  | here => rfl
  | @down a c b i p hi hc h ih =>
      obtain ⟨hv, _, hid⟩ := of_child ha hc
      have hlc := (Descends.single hi hc).level hl
      obtain ⟨_, hd⟩ := h.exists_descends
      rw [List.length_cons, List.range'_succ, List.mapM_cons, hd.ancestor hv hlc, ok_bind, hid,
        ok_bind, ih hv hlc, ok_bind, pure_eq_ok]

end

section

variable [LawfulNumbering E]

theorem Leads.path_eq {e : E} {p : List Nat} (h : Leads root p e) : path e = .ok p := by
  obtain ⟨i, hd⟩ := h.exists_descends
  rw [path, hd.level_of_root, ok_bind]
  exact h.mapM_childId valid_root level_root

theorem inRoot_iff_leads {e : E} : InRoot e ↔ ∃ p, Leads root p e := by
  rw [inRoot_iff]
  constructor
  · rintro ⟨l, i, h⟩
    exact Below.exists_leads ⟨l, i, h⟩
  · rintro ⟨p, h⟩
    exact ⟨p.length, h.exists_descends⟩

/-! ## Order along the curve -/

theorem compare_swap {a b : E} (ha : Below root a) (hb : Below root b) :
    ∃ o, Element.compare a b = .ok o ∧ Element.compare b a = .ok o.swap := by
  obtain ⟨l, i, ha⟩ := ha
  obtain ⟨m, j, hb⟩ := hb
  refine ⟨_, compare_of_descends ha hb, ?_⟩
  rw [compare_of_descends hb ha, Ordering.swap_then, Nat.compare_swap, Nat.compare_swap]

theorem compare_self {a : E} (ha : Below root a) : Element.compare a a = .ok .eq := by
  obtain ⟨l, i, ha⟩ := ha
  rw [compare_of_descends ha ha, Std.compare_self, Std.compare_self, Ordering.eq_then]

theorem compare_of_leads_cons {a b : E} {i : Nat} {p : List Nat} (ha : Below root a)
    (h : Leads a (i :: p) b) : Element.compare a b = .ok .lt := by
  obtain ⟨l, n, ha⟩ := ha
  obtain ⟨j, hj⟩ := h.exists_descends
  have hb := ha.trans hj
  have start := (h.isBelow.extent_le ha.extent hb.extent).1
  refine (compare_eq_lt_iff ha hb).mpr ?_
  rw [List.length_cons] at start ⊢
  omega

theorem compare_of_leads_lt {a b c : E} {i j : Nat} {p q : List Nat} (ha : Below root a)
    (hb : Leads a (i :: p) b) (hc : Leads a (j :: q) c) (hij : i < j) :
    Element.compare b c = .ok .lt := by
  obtain ⟨l, n, ha⟩ := ha
  obtain ⟨hi, b', hb', hb⟩ := leads_cons_iff.mp hb
  obtain ⟨hj, c', hc', hc⟩ := leads_cons_iff.mp hc
  have earlier := ha.child hi hb'
  have later := ha.child hj hc'
  obtain ⟨_, db⟩ := hb.exists_descends
  obtain ⟨_, dc⟩ := hc.exists_descends
  have eb := (earlier.trans db).extent
  have ec := (later.trans dc).extent
  have ends := (hb.isBelow.extent_le earlier.extent eb).2
  have starts := (hc.isBelow.extent_le later.extent ec).1
  have next : (branching E * n + i + 1) * span E (l + 1) ≤
      (branching E * n + j) * span E (l + 1) := Nat.mul_le_mul_right _ (by omega)
  exact ((eb.le_iff ec).mp (ends.trans (next.trans starts))).1

theorem compare_of_leads {a b c : E} {p q : List Nat} (ha : Below root a) (hb : Leads a p b)
    (hc : Leads a q c) : Element.compare b c = .ok (Ord.compare p q) := by
  induction p generalizing a q with
  | nil =>
      obtain rfl := leads_nil_iff.mp hb
      cases q with
      | nil =>
          obtain rfl := leads_nil_iff.mp hc
          exact compare_self ha
      | cons j q =>
          rw [List.compare_nil_cons]
          exact compare_of_leads_cons ha hc
  | cons i p ih =>
      cases q with
      | nil =>
          obtain rfl := leads_nil_iff.mp hc
          have before := compare_of_leads_cons ha hb
          obtain ⟨o, ho, hswap⟩ := compare_swap ha (ha.trans hb.isBelow)
          cases before.symm.trans ho
          rw [List.compare_cons_nil]
          exact hswap
      | cons j q =>
          rw [List.compare_cons_cons]
          rcases Nat.lt_trichotomy i j with hij | rfl | hji
          · rw [Nat.compare_eq_lt.mpr hij]
            exact compare_of_leads_lt ha hb hc hij
          · -- The paths have not parted yet: both go on from the same child.
            obtain ⟨hi, d, hd, hb⟩ := leads_cons_iff.mp hb
            obtain ⟨_, d', hd', hc⟩ := leads_cons_iff.mp hc
            cases hd.symm.trans hd'
            rw [Std.compare_self, Ordering.eq_then]
            exact ih (ha.trans ⟨1, i, .single hi hd⟩) hb hc
          · have before := compare_of_leads_lt ha hc hb hji
            obtain ⟨o, ho, hswap⟩ := compare_swap (ha.trans hc.isBelow) (ha.trans hb.isBelow)
            cases before.symm.trans ho
            rw [Nat.compare_eq_gt.mpr hji]
            exact hswap

theorem totallyOrders_compare : TotallyOrders (InRoot : E → Prop) Element.compare :=
  totallyOrders_of_key (fun e p => Leads root p e) inRoot_iff_leads.mp Leads.unique
    (compare_of_leads (Below.refl root))

end

end Element

/-! ## Mixed shapes -/

namespace AnyElement

def InRoot (e : AnyElement) : Prop := Element.InRoot e.element

/-- The roots of the shapes follow one another like the children of one node. -/
def Key (e : AnyElement) (key : List Nat) : Prop :=
  ∃ p, Element.Leads Element.root p e.element ∧ key = e.shape.index :: p

theorem compare_of_shape_ne {a b : AnyElement} (h : a.shape ≠ b.shape) :
    AnyElement.compare a b = .ok (Ord.compare a.shape b.shape) := by
  rw [compare, as?_eq_none_iff.mpr h.symm]
  rfl

theorem Key.unique {a b : AnyElement} {key : List Nat} (ha : a.Key key) (hb : b.Key key) :
    a = b := by
  obtain ⟨s, a⟩ := a
  obtain ⟨t, b⟩ := b
  obtain ⟨p, hp, rfl⟩ := ha
  obtain ⟨q, hq, same⟩ := hb
  obtain ⟨hst, rfl⟩ := List.cons.inj same
  obtain rfl := Shape.index_injective hst
  exact congrArg (AnyElement.mk s) (Element.Leads.unique hp hq)

theorem compare_of_key {a b : AnyElement} {k m : List Nat} (ha : a.Key k) (hb : b.Key m) :
    AnyElement.compare a b = .ok (Ord.compare k m) := by
  obtain ⟨s, a⟩ := a
  obtain ⟨t, b⟩ := b
  obtain ⟨p, hp, rfl⟩ := ha
  obtain ⟨q, hq, rfl⟩ := hb
  rw [List.compare_cons_cons]
  by_cases hst : s = t
  · subst hst
    have within := Element.compare_of_leads (Element.Below.refl _) hp hq
    have tie : Ord.compare s.index s.index = .eq := Std.compare_self
    rw [compare, as?_mk]
    rw [tie, Ordering.eq_then]
    exact within
  · have apart : Ord.compare s.index t.index ≠ .eq := fun h =>
      hst (Shape.index_injective (Nat.compare_eq_eq.mp h))
    rw [compare_of_shape_ne hst]
    change Except.ok (Ord.compare s.index t.index) = _
    generalize Ord.compare s.index t.index = o at apart
    cases o with
    | eq => exact absurd rfl apart
    | lt => rfl
    | gt => rfl

theorem totallyOrders_compare : TotallyOrders InRoot AnyElement.compare := by
  refine totallyOrders_of_key Key ?_ Key.unique compare_of_key
  intro e he
  obtain ⟨p, hp⟩ := Element.inRoot_iff_leads.mp he
  exact ⟨_, p, hp, rfl⟩

end AnyElement

/-! ## Every shape -/

open Element

/-- Within a shape the curve visits the tree in pre-order; this is a total order, and so
is the order of mixed elements, which goes by shape first. -/
theorem compare_is_preorder :
    (∀ (s : Shape) (a b : s.Carrier), InRoot a → InRoot b →
      ∃ p q o, path a = .ok p ∧ path b = .ok q ∧ Element.compare a b = .ok o ∧
        (o = .lt ↔ Precedes p q) ∧ (o = .eq ↔ a = b) ∧ (o = .gt ↔ ¬ Precedes p q ∧ a ≠ b)) ∧
    (∀ s : Shape, TotallyOrders (InRoot : s.Carrier → Prop) Element.compare) ∧
    TotallyOrders AnyElement.InRoot AnyElement.compare ∧
    ∀ a b : AnyElement, a.shape ≠ b.shape →
      AnyElement.compare a b = .ok (Ord.compare a.shape b.shape) := by
  refine ⟨?_, fun s => totallyOrders_compare, AnyElement.totallyOrders_compare,
    fun a b => AnyElement.compare_of_shape_ne⟩
  intro s a b ha hb
  obtain ⟨p, hp⟩ := inRoot_iff_leads.mp ha
  obtain ⟨q, hq⟩ := inRoot_iff_leads.mp hb
  have order := compare_of_leads (Below.refl root) hp hq
  have same := (totallyOrders_compare (E := s.Carrier)).eq_iff ha hb
  rw [order, Except.ok.injEq] at same
  refine ⟨p, q, _, hp.path_eq, hq.path_eq, order, precedes_iff.symm, same, ?_⟩
  rw [precedes_iff, ne_eq, ← same]
  cases Ord.compare p q <;> decide

theorem compare_is_preorder_prism :
    InRoot (root : Prism) ∧ InRoot lastPrism ∧ path (root : Prism) = .ok [] ∧
      path lastPrism = .ok [7] ∧ Precedes [] [7] ∧
      Element.compare (root : Prism) lastPrism = .ok .lt ∧
      Shape.tet ≠ Shape.prism ∧
      AnyElement.compare ⟨.tet, (root : Tet)⟩ ⟨.prism, lastPrism⟩ = .ok .lt := by
  obtain ⟨within, _, _, apart⟩ := compare_is_preorder
  have first : InRoot (root : Prism) := ⟨by decide, by rfl⟩
  have last : InRoot lastPrism := ⟨by decide, by rfl⟩
  have top : path (root : Prism) = .ok [] := by rfl
  have down : path lastPrism = .ok [7] := by rfl
  obtain ⟨p, q, o, hp, hq, ho, before, _⟩ := within .prism root lastPrism first last
  obtain rfl : p = [] := Except.ok.inj (hp.symm.trans top)
  obtain rfl : q = [7] := Except.ok.inj (hq.symm.trans down)
  have precedes : Precedes [] [7] := .inl (by decide)
  rw [before.mpr precedes] at ho
  have distinct : Shape.tet ≠ Shape.prism := by decide
  exact ⟨first, last, top, down, precedes, ho, distinct,
    apart ⟨.tet, root⟩ ⟨.prism, lastPrism⟩ distinct⟩

end MeshCurve
