import MeshCurve.Proofs.Adapt.Moves
import MeshCurve.Proofs.Adapt.Passes
import MeshCurve.Proofs.Order
import Mathlib.Data.List.Nodup

/-!
# The groups of a pass as an edit script

Replayed one after the other, the groups of a pass turn the leaves that it was given
into those that it leaves behind: at every step what a group replaces stands in the array
exactly once.  Between two moves the array so far is what has been placed, what is
pending and what remains, and a move edits it in one place or not at all.

The keys follow the curve, since a key lies behind everything that is still to come.
-/

namespace MeshCurve.Adapt

open Element Leaves

/-! ## Replaying -/

section

variable {E : Type} [DecidableEq E]

/-- The places at which `run` stands in `xs`. -/
def places (run xs : List E) : List Nat :=
  (List.range (xs.length + 1)).filter fun n => run.isPrefixOf (xs.drop n)

/-- Puts `new` in the place of `run`, which has to stand in `xs` exactly once. -/
def replaceOnce (run new xs : List E) : Option (List E) :=
  match places run xs with
  | [n] => some (xs.take n ++ new ++ xs.drop (n + run.length))
  | _ => none

def Transition.applyTo (t : Transition E) (xs : List E) : Option (List E) :=
  match t.kind with
  | .refine => replaceOnce [t.key] t.added xs
  | .coarsen => replaceOnce t.removed [t.key] xs

def replay (groups : List (Transition E)) (xs : List E) : Option (List E) :=
  groups.foldlM (fun xs t => t.applyTo xs) xs

theorem mem_places_iff {run xs : List E} {n : Nat} :
    n ∈ places run xs ↔ ∃ before after, xs = before ++ run ++ after ∧ before.length = n := by
  rw [places, List.mem_filter, List.mem_range, List.isPrefixOf_iff_prefix]
  constructor
  · rintro ⟨inside, after, whole⟩
    refine ⟨xs.take n, after, ?_, ?_⟩
    · rw [List.append_assoc, whole, List.take_append_drop]
    · rw [List.length_take]
      omega
  · rintro ⟨before, after, rfl, rfl⟩
    refine ⟨?_, after, ?_⟩
    · simp only [List.length_append]
      omega
    · rw [List.append_assoc, List.drop_left]

/-- Where nothing stands twice, a run stands in one place. -/
theorem places_eq {before run after : List E} (some' : run ≠ [])
    (nodup : (before ++ run ++ after).Nodup) :
    places run (before ++ run ++ after) = [before.length] := by
  obtain ⟨e, run, rfl⟩ := List.exists_cons_of_ne_nil some'
  apply List.perm_singleton.mp
  have once : (places (e :: run) (before ++ e :: run ++ after)).Nodup := List.nodup_range.filter _
  refine (List.perm_ext_iff_of_nodup once (List.nodup_singleton _)).mpr ?_
  intro n
  rw [mem_places_iff, List.mem_singleton]
  constructor
  · rintro ⟨before', after', whole, rfl⟩
    have here : (before ++ e :: run ++ after)[before.length]? = some e := by simp
    have there : (before ++ e :: run ++ after)[before'.length]? = some e := by simp [whole]
    exact ((List.getElem?_inj (List.getElem?_eq_some_iff.mp here).1 nodup).mp
      (here.trans there.symm)).symm
  · rintro rfl
    exact ⟨before, after, rfl, rfl⟩

theorem replaceOnce_eq {before run after : List E} (new : List E) (some' : run ≠ [])
    (nodup : (before ++ run ++ after).Nodup) :
    replaceOnce run new (before ++ run ++ after) = some (before ++ new ++ after) := by
  rw [replaceOnce, places_eq some' nodup]
  simp only
  rw [← List.length_append, List.drop_left, List.append_assoc before run, List.take_left]

theorem replay_snoc {groups : List (Transition E)} {t : Transition E} {xs ys : List E}
    (h : replay groups xs = some ys) : replay (groups ++ [t]) xs = t.applyTo ys := by
  rw [replay] at h ⊢
  rw [List.foldlM_append, h]
  simp

end

/-! ## Edits -/

/-- What holds along a list still does if a part is replaced, as far as the new part follows
the old one. -/
theorem pairwise_replace {α : Type} {R : α → α → Prop} {before run new after : List α}
    (h : (before ++ run ++ after).Pairwise R) (within : new.Pairwise R)
    (left : ∀ x ∈ before, (∀ d ∈ run, R x d) → ∀ c ∈ new, R x c)
    (right : ∀ x ∈ after, (∀ d ∈ run, R d x) → ∀ c ∈ new, R c x) :
    (before ++ new ++ after).Pairwise R := by
  obtain ⟨early, last, across⟩ := List.pairwise_append.mp h
  obtain ⟨first, _, across'⟩ := List.pairwise_append.mp early
  apply List.pairwise_append.mpr
  refine ⟨List.pairwise_append.mpr ⟨first, within, ?_⟩, last, ?_⟩
  · exact fun x hx => left x hx (across' x hx)
  · intro c hc x hx
    rcases List.mem_append.mp hc with hc | hc
    · exact across c (List.mem_append_left _ hc) x hx
    · exact right x hx (fun d hd => across d (List.mem_append_right _ hd) x hx) c hc

section

variable {E : Type} [Element E]

/-- What one group does to an array of elements. -/
inductive Edit : Transition E → List E → List E → Prop
  | split {e : E} {cs before after : List E} : children e = .ok cs →
      Edit ⟨.refine, e, cs, [e]⟩ (before ++ [e] ++ after) (before ++ cs ++ after)
  | merge {q : E} {family before after : List E} : Valid q → children q = .ok family →
      Edit ⟨.coarsen, q, [q], family⟩ (before ++ family ++ after) (before ++ [q] ++ after)

theorem Edit.applyTo_eq [DecidableEq E] {t : Transition E} {xs ys : List E} (h : Edit t xs ys)
    (nodup : xs.Nodup) : t.applyTo xs = some ys := by
  cases h with
  | split => exact replaceOnce_eq _ (List.cons_ne_nil _ _) nodup
  | merge _ hf => exact replaceOnce_eq _ (children_ne_nil hf) nodup

theorem apart_of_children {q y : E} {family : List E} (hf : children q = .ok family)
    (h : ∀ c ∈ family, Apart c y) : Apart q y := by
  refine ⟨not_below_of_apart_children hf h, ?_⟩
  intro above
  obtain ⟨c, hc⟩ := List.exists_mem_of_ne_nil family (children_ne_nil hf)
  exact (h c hc).2 (above.trans (below_of_mem_children hf hc))

/-- Valid elements none of which is below another. -/
structure Spread (xs : List E) : Prop where
  valid : ∀ e ∈ xs, Valid e
  apart : xs.Pairwise Apart

theorem Spread.nodup {xs : List E} (h : Spread xs) : xs.Nodup := h.apart.imp Apart.ne

theorem Spread.replace {before run new after : List E} (h : Spread (before ++ run ++ after))
    (valid : ∀ d ∈ new, Valid d) (within : new.Pairwise Apart)
    (across : ∀ y, Valid y → (∀ e ∈ run, Apart e y) → ∀ d ∈ new, Apart d y) :
    Spread (before ++ new ++ after) := by
  obtain ⟨old, apart⟩ := h
  simp only [List.forall_mem_append] at old
  obtain ⟨⟨validB, _⟩, validA⟩ := old
  constructor
  · simp only [List.forall_mem_append]
    exact ⟨⟨validB, valid⟩, validA⟩
  · apply pairwise_replace apart within
    · intro y hy apart d hd
      exact (across y (validB y hy) (fun e he => (apart e he).symm) d hd).symm
    · exact fun y hy => across y (validA y hy)

variable [LawfulForest E]

theorem Edit.spread {t : Transition E} {xs ys : List E} (h : Edit t xs ys) (hx : Spread xs) :
    Spread ys := by
  cases h with
  | @split e cs before after hcs =>
      have he : Valid e := hx.valid e (by simp)
      refine hx.replace (fun c hc => valid_of_mem_children he hcs hc)
        (pairwise_apart_children he hcs) ?_
      intro y hy apart c hc
      exact (apart e List.mem_cons_self).of_below he hy (below_of_mem_children hcs hc)
  | @merge q family before after hq hf =>
      refine hx.replace (List.forall_mem_singleton.mpr hq) (List.pairwise_singleton _ _) ?_
      intro y _ apart d hd
      rw [List.mem_singleton.mp hd]
      exact apart_of_children hf apart

end

section

variable {Client E : Type}

theorem transitions_split (p : Progress Client E) (g : Transition E) :
    (p.split g).stats.transitions = p.stats.transitions + 1 := by
  simp only [Stats.transitions, Progress.stats_split]
  omega

theorem transitions_merge (p : Progress Client E) (g : Transition E) :
    (p.merge g).stats.transitions = p.stats.transitions + 1 := by
  simp only [Stats.transitions, Progress.stats_merge]
  omega

variable [Element E] {limits : Limits} {policy : Policy Client E} {s t : Stage Client E}

/-- A move leaves the array as it is, or edits it and writes down the group. -/
theorem Move.edits (h : Move limits policy s t) :
    (t.elements = s.elements ∧ t.progress.groups = s.progress.groups ∧
        t.progress.stats.transitions = s.progress.stats.transitions) ∨
      ∃ g, Edit g s.elements t.elements ∧ t.progress.groups = s.progress.groups.push g ∧
        t.progress.stats.transitions = s.progress.stats.transitions + 1 := by
  unfold Stage.elements
  cases h with
  | keep _ asked | refuse _ _ asked | settle _ _ asked =>
      obtain ⟨_, leaves, groups, stats⟩ := of_ask asked
      left
      simp [leaves, groups, stats, Stats.transitions]
  | place =>
      left
      simp
  | @split e rest offered cs p p₁ _ asked _ hcs =>
      obtain ⟨_, leaves, groups, stats⟩ := of_ask asked
      right
      refine ⟨⟨.refine, e, cs, [e]⟩, ?_, ?_, ?_⟩
      · have edit : Edit ⟨.refine, e, cs, [e]⟩ (p.leaves.toList ++ [e] ++ rest)
            (p.leaves.toList ++ cs ++ rest) := .split hcs
        simpa [leaves] using edit
      · rw [Progress.groups_split, groups]
      · rw [transitions_split, stats]
  | @merge q first siblings rest p p₁ hq hf asked _ =>
      obtain ⟨_, leaves, groups, stats⟩ := of_ask asked
      right
      refine ⟨⟨.coarsen, q, [q], first :: siblings⟩, ?_, ?_, ?_⟩
      · have edit : Edit ⟨.coarsen, q, [q], first :: siblings⟩
            (p.leaves.toList ++ (first :: siblings) ++ rest) (p.leaves.toList ++ [q] ++ rest) :=
          .merge hq hf
        simpa [leaves] using edit
      · rw [Progress.groups_merge, groups]
      · rw [transitions_merge, stats]
  | @descend e pending rest cs p p₁ _ _ asked hcs =>
      obtain ⟨_, leaves, groups, stats⟩ := of_ask asked
      right
      refine ⟨⟨.refine, e, cs, [e]⟩, ?_, ?_, ?_⟩
      · have edit : Edit ⟨.refine, e, cs, [e]⟩ (p.leaves.toList ++ [e] ++ (pending ++ rest))
            (p.leaves.toList ++ cs ++ (pending ++ rest)) := .split hcs
        simpa [leaves] using edit
      · rw [Progress.groups_split, groups]
      · rw [transitions_split, stats]

/-- What any number of moves writes down is a script for what they do. -/
theorem exists_script_of_moves [DecidableEq E] [LawfulForest E] (h : Moves limits policy s t)
    (spread : Spread s.elements) :
    Spread t.elements ∧ ∃ script, t.progress.groups.toList = s.progress.groups.toList ++ script ∧
      replay script s.elements = some t.elements ∧
      t.progress.stats.transitions = s.progress.stats.transitions + script.length := by
  induction h with
  | refl => exact ⟨spread, [], (List.append_nil _).symm, rfl, rfl⟩
  | @tail t u _ move ih =>
      obtain ⟨spread', script, written, replayed, count⟩ := ih
      rcases move.edits with ⟨same, groups, stats⟩ | ⟨g, edit, groups, stats⟩
      · exact ⟨same ▸ spread', script, groups ▸ written, same ▸ replayed, stats ▸ count⟩
      · refine ⟨edit.spread spread', script ++ [g], ?_, ?_, ?_⟩
        · rw [groups, Array.toList_push, written, List.append_assoc]
        · rw [replay_snoc replayed, edit.applyTo_eq spread'.nodup]
        · rw [stats, count, List.length_append, List.length_singleton, Nat.add_assoc]

end

/-! ## What a pass leaves behind -/

section

variable {Client E : Type} [Element E]

theorem Edit.inRoot [LawfulNumbering E] {t : Transition E} {xs ys : List E} (h : Edit t xs ys)
    (hx : ∀ e ∈ xs, InRoot e) : ∀ e ∈ ys, InRoot e := by
  cases h with
  | split hcs =>
      simp only [List.forall_mem_append, List.forall_mem_singleton] at hx ⊢
      obtain ⟨⟨before, he⟩, after⟩ := hx
      exact ⟨⟨before, fun c hc => hereditary_inRoot.mem_children he hcs hc⟩, after⟩
  | merge hq hf =>
      simp only [List.forall_mem_append, List.forall_mem_singleton] at hx ⊢
      obtain ⟨⟨before, family⟩, after⟩ := hx
      exact ⟨⟨before, inRoot_of_children hq hf family⟩, after⟩

variable [DecidableEq E] {limits : Limits} {policy : Policy Client E} {client : Client}
  {leaves : Leaves E} {out : Outcome Client E}

theorem spread_of_adapt [LawfulNavigation E] (h : Spread leaves.toList)
    (ran : adapt limits policy client leaves = .ok out) : Spread out.leaves.toList := by
  obtain ⟨p, moves, new, _⟩ := exists_moves h.valid ran
  obtain ⟨spread, _⟩ := exists_script_of_moves moves (by simpa [Stage.elements] using h)
  simpa [Stage.elements, new] using spread

theorem inRoot_of_adapt [LawfulNumbering E] (h : ∀ e ∈ leaves.toList, InRoot e)
    (ran : adapt limits policy client leaves = .ok out) : ∀ e ∈ out.leaves.toList, InRoot e := by
  obtain ⟨p, moves, new, _⟩ := exists_moves (fun e he => (h e he).1) ran
  have kept : ∀ {s t : Stage Client E}, Move limits policy s t →
      (∀ e ∈ s.elements, InRoot e) → ∀ e ∈ t.elements, InRoot e := by
    intro s t move hs
    rcases move.edits with ⟨same, _⟩ | ⟨g, edit, _⟩
    · exact same ▸ hs
    · exact edit.inRoot hs
  have all := invariant_of_moves (P := fun s => ∀ e ∈ s.elements, InRoot e) kept moves
    (by simpa [Stage.elements] using h)
  simpa [Stage.elements, new] using all

end

/-! ## The order of the keys -/

section

variable {E : Type} [Element E]

/-- The keys follow the curve, and lie behind what is pending and what remains. -/
structure Behind (keys pending remaining : List E) : Prop where
  laid : Laid 0 (pending ++ remaining)
  increasing : keys.Pairwise fun a b => Element.compare a b = .ok .lt
  pending : ∀ k ∈ keys, ∀ e ∈ pending, Element.compare k e = .ok .lt
  remaining : ∀ k ∈ keys, ∃ lo hi, Extent k lo hi ∧ Laid hi remaining

variable {keys pending rest cs : List E} {e q : E}

theorem Behind.drop {xs : List E} (h : Behind keys pending (xs ++ rest)) :
    Behind keys [] rest where
  laid := by
    have laid := h.laid
    rw [← List.append_assoc] at laid
    exact laid.of_append
  increasing := h.increasing
  pending _ _ d hd := absurd hd List.not_mem_nil
  remaining k hk := by
    obtain ⟨lo, hi, own, laid⟩ := h.remaining k hk
    exact ⟨lo, hi, own, laid.of_append⟩

theorem Behind.place (h : Behind keys (e :: pending) rest) : Behind keys pending rest where
  laid := by
    have laid : Laid 0 ([e] ++ (pending ++ rest)) := h.laid
    exact laid.of_append
  increasing := h.increasing
  pending k hk d hd := h.pending k hk d (List.mem_cons_of_mem e hd)
  remaining := h.remaining

/-- A new key that comes after all others and before what is pending. -/
theorem Behind.push {lo hi : Nat} (h : Behind keys pending rest)
    (last : ∀ k ∈ keys, Element.compare k q = .ok .lt)
    (next : ∀ e ∈ pending, Element.compare q e = .ok .lt) (own : Extent q lo hi)
    (later : Laid hi rest) : Behind (keys ++ [q]) pending rest where
  laid := h.laid
  increasing := by
    refine List.pairwise_append.mpr ⟨h.increasing, List.pairwise_singleton _ _, ?_⟩
    intro k hk d hd
    rw [List.mem_singleton.mp hd]
    exact last k hk
  pending := List.forall_mem_append.mpr ⟨h.pending, List.forall_mem_singleton.mpr next⟩
  remaining := List.forall_mem_append.mpr
    ⟨h.remaining, List.forall_mem_singleton.mpr ⟨lo, hi, own, later⟩⟩

variable [LawfulNumbering E]

theorem compare_children (he : InRoot e) (h : children e = .ok cs) :
    ∀ c ∈ cs, Element.compare e c = .ok .lt := by
  intro c hc
  obtain ⟨i, hi, step⟩ := (mem_children_iff h).mp hc
  exact compare_of_leads_cons ((isInsideRoot_of_valid he.1).eq_true_iff.mp he.2)
    (.down hi step .here)

theorem compare_of_laid {lo hi : Nat} (he : Extent e lo hi) (h : Laid hi rest) :
    ∀ d ∈ rest, Element.compare e d = .ok .lt := by
  intro d hd
  obtain ⟨lo', hi', hd'⟩ := inRoot_iff_extent.mp (h.inRoot d hd)
  exact ((he.le_iff hd').mp (h.le_start hd hd')).1

/-- The first of the remaining leaves comes up to be refined. -/
theorem Behind.raise (h : Behind keys [] (e :: rest)) : Behind keys [e] rest where
  laid := h.laid
  increasing := h.increasing
  pending k hk := by
    obtain ⟨lo, hi, own, laid⟩ := h.remaining k hk
    exact List.forall_mem_singleton.mpr (compare_of_laid own laid e List.mem_cons_self)
  remaining := by
    have first : Behind keys [] ([e] ++ rest) := h
    exact first.drop.remaining

/-- The first of the pending elements makes way for its children. -/
theorem Behind.expand (h : Behind keys (e :: pending) rest) (hcs : children e = .ok cs) :
    Behind keys (cs ++ pending) rest := by
  have laid : Laid 0 (e :: (pending ++ rest)) := h.laid
  have inside : InRoot e := laid.inRoot e List.mem_cons_self
  obtain ⟨lo, hi, he⟩ := inRoot_iff_extent.mp inside
  obtain ⟨start, later⟩ := (laid_cons_iff he).mp laid
  refine ⟨?_, h.increasing, ?_, h.remaining⟩
  · rw [List.append_assoc]
    exact (laid_append_iff (tiled_children he hcs) he.lt).mpr ⟨start, later⟩
  · intro k hk d hd
    rcases List.mem_append.mp hd with hd | hd
    · obtain ⟨_, _, own, _⟩ := h.remaining k hk
      have child : InRoot d := hereditary_inRoot.mem_children inside hcs hd
      exact totallyOrders_compare.trans own.inRoot inside child
        (h.pending k hk e List.mem_cons_self) (compare_children inside hcs d hd)
    · exact h.pending k hk d (List.mem_cons_of_mem e hd)

theorem Behind.split (h : Behind keys (e :: pending) rest) (hcs : children e = .ok cs) :
    Behind (keys ++ [e]) (cs ++ pending) rest := by
  have laid : Laid 0 (e :: (pending ++ rest)) := h.laid
  have inside : InRoot e := laid.inRoot e List.mem_cons_self
  obtain ⟨lo, hi, he⟩ := inRoot_iff_extent.mp inside
  obtain ⟨_, later⟩ := (laid_cons_iff he).mp laid
  refine (h.expand hcs).push (fun k hk => h.pending k hk e List.mem_cons_self) ?_ he
    later.of_append
  refine List.forall_mem_append.mpr ⟨compare_children inside hcs, ?_⟩
  exact fun d hd => compare_of_laid he later d (List.mem_append_left rest hd)

theorem Behind.merge {family : List E} (h : Behind keys [] (family ++ rest)) (hq : Valid q)
    (hf : children q = .ok family) : Behind (keys ++ [q]) [] rest := by
  have laid : Laid 0 (family ++ rest) := h.laid
  have inside := inRoot_of_children hq hf fun c hc => laid.inRoot c (List.mem_append_left _ hc)
  obtain ⟨lo, hi, own⟩ := inRoot_iff_extent.mp inside
  have tiled := tiled_children own hf
  refine h.drop.push ?_ (fun d hd => absurd hd List.not_mem_nil) own
    ((laid_append_iff tiled own.lt).mp laid).2
  intro k hk
  obtain ⟨lo', hi', hk', before⟩ := h.remaining k hk
  exact ((hk'.le_iff own).mp ((laid_append_iff tiled own.lt).mp before).1).1

end

section

variable {Client E : Type} [Element E] [LawfulNumbering E] {limits : Limits}
  {policy : Policy Client E} {s t : Stage Client E}

def Stage.keys (s : Stage Client E) : List E := s.progress.groups.toList.map Transition.key

theorem Move.behind (h : Move limits policy s t) (hs : Behind s.keys s.pending s.remaining) :
    Behind t.keys t.pending t.remaining := by
  unfold Stage.keys at hs ⊢
  cases h with
  | @keep e rest _ _ _ _ _ asked =>
      have first : Behind _ [] ([e] ++ rest) := hs
      simp only [Progress.groups_keep, (of_ask asked).2.2.1]
      exact first.drop
  | refuse _ _ asked =>
      simp only [Progress.groups_keep, (of_ask asked).2.2.1]
      exact hs.drop
  | split _ asked _ hcs =>
      have next := hs.raise.split hcs
      simpa [(of_ask asked).2.2.1] using next
  | merge hq hf asked =>
      have next := hs.merge hq hf
      simpa [(of_ask asked).2.2.1] using next
  | place => exact hs.place
  | settle _ _ asked =>
      simp only [Progress.groups_emit, (of_ask asked).2.2.1]
      exact hs.place
  | descend _ _ asked hcs =>
      have next := hs.split hcs
      simpa [(of_ask asked).2.2.1] using next

theorem behind_of_moves (h : Moves limits policy s t)
    (hs : Behind s.keys s.pending s.remaining) : Behind t.keys t.pending t.remaining :=
  invariant_of_moves (P := fun s => Behind s.keys s.pending s.remaining) Move.behind h hs

end

/-! ## Passes -/

/-- The groups of a pass over separate leaves are a script for it, with one group for each
change that is counted, and over ordered leaves their keys follow the curve. -/
theorem groups_replay (s : Shape) {Client : Type} {leaves : Leaves s.Carrier}
    (valid : ∀ e ∈ leaves.toList, Valid e) (separate : Separate leaves) (limits : Limits)
    {policy : Policy Client s.Carrier} {client : Client}
    (h : Cooperates limits policy client leaves) :
    ∃ out, adapt limits policy client leaves = .ok out ∧
      replay out.groups leaves.toList = some out.leaves.toList ∧
      out.groups.length = out.stats.refinements + out.stats.coarsenings ∧
      ((∀ e ∈ leaves.toList, InRoot e) → leaves.isSorted = .ok true →
        (out.groups.map Transition.key).Pairwise fun a b => Element.compare a b = .ok .lt) := by
  have apart := (separate_iff valid).mp separate
  obtain ⟨out, ran, _⟩ := exists_adapt h valid apart
  obtain ⟨p, moves, new, stats, groups⟩ := exists_moves valid ran
  obtain ⟨_, script, written, replayed, count⟩ := exists_script_of_moves moves ⟨valid, apart⟩
  obtain rfl : script = out.groups := by
    rw [groups]
    exact written.symm
  refine ⟨out, ran, ?_, ?_, ?_⟩
  · rw [new]
    simpa [Stage.elements] using replayed
  · rw [stats]
    simpa [Stats.transitions, Stats.zero, Progress.start] using count.symm
  · intro inRoot sorted
    have laid := ordered_iff_laid.mp ⟨inRoot, sorted, separate⟩
    have nothing : Behind (E := s.Carrier) [] [] leaves.toList :=
      ⟨laid, .nil, fun _ hk => absurd hk List.not_mem_nil, fun _ hk => absurd hk List.not_mem_nil⟩
    rw [groups]
    exact (behind_of_moves moves nothing).increasing

/-- The family of the root's first child and, after it, the second child. -/
def mixedQuads : Leaves Quad :=
  ⟨[⟨0, 0, 2⟩, ⟨0x10000000, 0, 2⟩, ⟨0, 0x10000000, 2⟩, ⟨0x10000000, 0x10000000, 2⟩,
    ⟨0x20000000, 0, 1⟩]⟩

theorem groups_replay_quad :
    (∀ e ∈ mixedQuads.toList, InRoot e) ∧ mixedQuads.isSorted = .ok true ∧
      Separate mixedQuads ∧ Cooperates ⟨0, 3, true, .unlimited⟩ (seesaw Quad) 0 mixedQuads ∧
      ∃ out, adapt ⟨0, 3, true, .unlimited⟩ (seesaw Quad) 0 mixedQuads = .ok out ∧
        replay out.groups mixedQuads.toList = some out.leaves.toList ∧
        out.groups.length = out.stats.refinements + out.stats.coarsenings ∧
        (out.groups.map Transition.key).Pairwise fun a b => Element.compare a b = .ok .lt := by
  have inRoot : ∀ e ∈ mixedQuads.toList, InRoot e := by
    unfold InRoot
    decide
  have sorted : mixedQuads.isSorted = .ok true := by rfl
  have separate : Separate mixedQuads := by
    unfold Separate
    decide
  have cooperates := (seesaw_willing InRoot).cooperates hereditary_inRoot
    ⟨0, 3, true, .unlimited⟩ 0 inRoot
  obtain ⟨out, ran, replayed, count, keys⟩ := groups_replay .quad (fun e he => (inRoot e he).1)
    separate ⟨0, 3, true, .unlimited⟩ cooperates
  exact ⟨inRoot, sorted, separate, cooperates, out, ran, replayed, count, keys inRoot sorted⟩

end MeshCurve.Adapt
