import MeshCurve.Proofs.Adapt.Accounts
import Mathlib.Algebra.BigOperators.Group.List.Basic

/-!
# Dissections of an element

An element is dissected by splitting it, and then some of its descendants, one after the
other.  The elements that this leaves are apart, cover all that is below the first one and come
in depth-first order.  Each split adds a family less one element and hands down to it the share
that its parent had of a finer level, so that a full tree bounds the number of splits.
-/

namespace MeshCurve.Adapt

open Element

variable {E : Type} [Element E]

/-- The way down from `a` to `x` parts from that to `y` by a smaller child number. -/
def Before (a x y : E) : Prop := ∃ p q, Leads a p x ∧ Leads a q y ∧ Parts p q

/-- The elements cut up `a`, in depth-first order. -/
structure Partitions (a : E) (xs : List E) : Prop where
  below : ∀ x ∈ xs, Below a x
  apart : xs.Pairwise Apart
  covers : ∀ d, Below a d → level d = .ok (finest E) → ∃! x, x ∈ xs ∧ Below x d
  ordered : xs.Pairwise (Before a)

/-- The elements come from `a` by `r` splits of elements coarser than `top`. -/
inductive Dissects (top : Nat) (a : E) : (r : Nat) → List E → Prop
  | whole : Dissects top a 0 [a]
  | split {r m : Nat} {before after cs : List E} {d : E} :
      Dissects top a r (before ++ [d] ++ after) → level d = .ok m → m < top →
      children d = .ok cs → Dissects top a (r + 1) (before ++ cs ++ after)

/-! ## Order -/

section

variable {a d x y : E} {cs : List E}

theorem Before.child_left (h : Before a x y) (hcs : children x = .ok cs) :
    ∀ c ∈ cs, Before a c y := by
  intro c hc
  obtain ⟨i, hi, step⟩ := (mem_children_iff hcs).mp hc
  obtain ⟨p, q, hp, hq, parts⟩ := h
  exact ⟨p ++ [i], q, hp.snoc hi step, hq, parts.append [i]⟩

theorem Before.child_right (h : Before a x y) (hcs : children y = .ok cs) :
    ∀ c ∈ cs, Before a x c := by
  intro c hc
  obtain ⟨i, hi, step⟩ := (mem_children_iff hcs).mp hc
  obtain ⟨p, q, hp, hq, parts⟩ := h
  exact ⟨p, q ++ [i], hp, hq.snoc hi step, parts.append_right [i]⟩

theorem pairwise_before_children (hd : Below a d) (hcs : children d = .ok cs) :
    cs.Pairwise (Before a) := by
  obtain ⟨p, hp⟩ := hd.exists_leads
  apply pairwise_children hcs
  intro i j c c' less room first second
  exact ⟨p ++ [i], p ++ [j], hp.snoc (less.trans room) first, hp.snoc room second,
    parts_append p less⟩

end

/-! ## Shares -/

/-- The number of elements of level `top` below an element that is not finer. -/
def share (top : Nat) (e : E) : Nat :=
  match level e with
  | .ok l => branching E ^ (top - l)
  | .error _ => 0

section

variable {top l : Nat} {e : E} {cs : List E}

theorem share_eq (hl : level e = .ok l) : share top e = branching E ^ (top - l) := by
  rw [share, hl]

theorem sum_share_children (hl : level e = .ok l) (coarse : l < top)
    (hcs : children e = .ok cs) : (cs.map (share top)).sum = share top e := by
  have each : ∀ c ∈ cs, share top c = branching E ^ (top - (l + 1)) := by
    intro c hc
    obtain ⟨l', hl', hc⟩ := level_of_mem_children hcs hc
    cases hl.symm.trans hl'
    exact share_eq hc
  have exponent : top - l = top - (l + 1) + 1 := by omega
  rw [List.map_congr_left each, List.map_const', List.sum_replicate, smul_eq_mul,
    length_children hcs, share_eq hl, exponent, pow_succ']

end

/-! ## Dissections -/

namespace Dissects

variable {top r l : Nat} {a : E} {xs : List E}

theorem isBelow (h : Dissects top a r xs) : ∀ x ∈ xs, Below a x := by
  induction h with
  | whole => exact List.forall_mem_singleton.mpr (.refl a)
  | split _ _ _ hcs ih =>
      simp only [List.forall_mem_append, List.forall_mem_singleton] at ih ⊢
      obtain ⟨⟨first, here⟩, last⟩ := ih
      exact ⟨⟨first, fun c hc => here.trans (below_of_mem_children hcs hc)⟩, last⟩

theorem ordered (h : Dissects top a r xs) : xs.Pairwise (Before a) := by
  induction h with
  | whole => exact List.pairwise_singleton _ _
  | split h _ _ hcs ih =>
      apply pairwise_replace ih
      · exact pairwise_before_children (h.isBelow _ (by simp)) hcs
      · exact fun x _ before => (before _ List.mem_cons_self).child_right hcs
      · exact fun x _ before => (before _ List.mem_cons_self).child_left hcs

theorem length_eq (h : Dissects top a r xs) : xs.length = 1 + (branching E - 1) * r := by
  induction h with
  | whole => simp
  | @split r m before after cs d _ _ _ hcs ih =>
      have several := branching_pos E
      have count : cs.length = branching E := length_children hcs
      simp only [List.length_append, List.length_singleton, Nat.mul_succ] at ih ⊢
      omega

section

variable [LawfulForest E]

theorem spread (h : Dissects top a r xs) (ha : Valid a) : Spread xs := by
  induction h with
  | whole => exact ⟨List.forall_mem_singleton.mpr ha, List.pairwise_singleton _ _⟩
  | split _ _ _ hcs ih => exact (Edit.split hcs).spread ih

theorem exists_above (h : Dissects top a r xs) {d : E} (hd : Below a d)
    (fine : level d = .ok (finest E)) : ∃ x ∈ xs, Below x d := by
  induction h with
  | whole => exact ⟨a, List.mem_singleton_self a, hd⟩
  | @split r m before after cs x _ _ _ hcs ih =>
      obtain ⟨y, hy, below⟩ := ih
      by_cases same : y = x
      · subst same
        have differ : d ≠ y := by
          rintro rfl
          exact absurd (level_lt_of_children hcs fine) (Nat.lt_irrefl _)
        obtain ⟨c, hc, under⟩ := exists_child_below hcs below differ
        exact ⟨c, by simp [hc], under⟩
      · have stays : y ∈ before ∨ y ∈ after := by simpa [same] using hy
        exact ⟨y, by simp only [List.mem_append]; tauto, below⟩

theorem partitions (h : Dissects top a r xs) (ha : Valid a) : Partitions a xs where
  below := h.isBelow
  apart := (h.spread ha).apart
  covers := by
    intro d hd fine
    obtain ⟨x, hx, below⟩ := h.exists_above hd fine
    refine ⟨x, ⟨hx, below⟩, ?_⟩
    rintro y ⟨hy, below'⟩
    have spread := h.spread ha
    rcases below.comparable (spread.valid x hx) (spread.valid y hy) below' with under | under
    · exact (spread.eq_of_below hx hy under).symm
    · exact spread.eq_of_below hy hx under
  ordered := h.ordered

end

theorem sum_share (h : Dissects top a r xs) (hl : level a = .ok l) :
    (xs.map (share top)).sum = branching E ^ (top - l) := by
  induction h with
  | whole => simp [share_eq hl]
  | split _ hd coarse hcs ih =>
      rw [← ih]
      simp [sum_share_children hd coarse hcs]

theorem length_le (h : Dissects top a r xs) (hl : level a = .ok l) :
    xs.length ≤ branching E ^ (top - l) := by
  have each : ∀ n ∈ xs.map (share top), 1 ≤ n := by
    intro n hn
    obtain ⟨x, hx, rfl⟩ := List.mem_map.mp hn
    obtain ⟨k, i, down⟩ := h.isBelow x hx
    rw [share_eq (down.level hl)]
    exact Nat.pow_pos (branching_pos E)
  have bound := List.length_le_sum_of_one_le _ each
  rwa [List.length_map, h.sum_share hl] at bound

/-- No more elements are split than a full tree has above its last level. -/
theorem splits_le (h : Dissects top a r xs) (hl : level a = .ok l) :
    r ≤ (branching E ^ (top - l) - 1) / (branching E - 1) := by
  have several : 1 < branching E := Shape.numChildren_pos _
  have bound := h.length_le hl
  rw [h.length_eq, Nat.mul_comm] at bound
  apply (Nat.le_div_iff_mul_le (Nat.sub_pos_of_lt several)).mpr
  omega

end Dissects

end MeshCurve.Adapt
