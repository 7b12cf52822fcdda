import MeshCurve.Proofs.Adapt.Offers
import MeshCurve.Proofs.Adapt.Passes

/-!
# What a policy is asked

A policy with a state of its own relies on being asked about each leaf once and in order.  The
leaves of the input are offered at their positions, except the members of a family behind the
first one after the family was to be coarsened, and the new children come between them in
pre-order.  Each part of this is kept by every step that a pass writes into its log.
-/

namespace MeshCurve.Adapt

open Element Leaves

variable {E : Type}

/-! ## Longer logs -/

section

variable {log : List (Offer E)} {o : Offer E}

/-- A family was to be coarsened, and the leaf at position `i` belongs to it without being its
first member. -/
def Skipped (log : List (Offer E)) (i : Nat) : Prop :=
  ∃ o ∈ log, o.answer = .coarsen ∧ ∃ k, o.key = [k] ∧ k < i ∧ i < k + o.elements.length

theorem exists_mem_concat_iff {key : List Nat} (h : o.key ≠ key) :
    (∃ x ∈ log ++ [o], x.key = key) ↔ ∃ x ∈ log, x.key = key := by
  simp [or_and_right, exists_or, h]

theorem skipped_concat_iff {i : Nat} :
    Skipped (log ++ [o]) i ↔ Skipped log i ∨
      o.answer = .coarsen ∧ ∃ k, o.key = [k] ∧ k < i ∧ i < k + o.elements.length := by
  simp [Skipped, or_and_right, exists_or]

/-- An offer about the leaf at position `next` leaves nothing out before the end of its span. -/
theorem reached_concat {next : Nat} (key : o.key = [next])
    (spans : ∀ x ∈ log, ∀ k, x.key = [k] → k + x.span ≤ next)
    (reached : ∀ i < next, (∃ x ∈ log, x.key = [i]) ↔ ¬ Skipped log i) :
    ∀ i < next + o.span, (∃ x ∈ log ++ [o], x.key = [i]) ↔ ¬ Skipped (log ++ [o]) i := by
  intro i hi
  rcases lt_trichotomy i next with before | rfl | behind
  · have differ : o.key ≠ [i] := by simp [key, before.ne']
    rw [exists_mem_concat_iff differ, reached i before, skipped_concat_iff]
    simp [key, before.le]
  · refine iff_of_true ⟨o, List.mem_concat_self, key⟩ ?_
    rw [skipped_concat_iff]
    rintro (⟨x, hx, coarsened, k, hk, _, room⟩ | ⟨_, k, hk, less, _⟩)
    · exact absurd room (Nat.not_lt.mpr (Offer.span_of_coarsen coarsened ▸ spans x hx k hk))
    · cases key.symm.trans hk
      exact Nat.lt_irrefl _ less
  · -- a position behind the one of the offer is in its span only if the offer is to be coarsened
    refine iff_of_false ?_ (not_not.mpr (skipped_concat_iff.mpr (.inr ?_)))
    · rintro ⟨x, hx, same⟩
      rcases List.mem_append.mp hx with hx | hx
      · have span := spans x hx i same
        omega
      · rw [List.mem_singleton.mp hx, key] at same
        cases same
        exact Nat.lt_irrefl _ behind
    · have several : o.answer = .coarsen := by
        by_contra other
        rw [Offer.span_of_ne_coarsen other] at hi
        omega
      exact ⟨several, next, key, behind, Offer.span_of_coarsen several ▸ hi⟩

theorem canRefine_concat {b : Budget} (h : b.canRefine (refinementsIn log) = false) :
    b.canRefine (refinementsIn (log ++ [o])) = false := by
  rw [refinementsIn, List.countP_append]
  rw [Budget.canRefine, decide_eq_false_iff_not, not_or] at h ⊢
  exact ⟨h.1, fun less => h.2 ((Nat.le_add_right _ _).trans_lt less)⟩

end

variable [Element E]

/-! ## Heirs -/

section

variable {o : Offer E} {heirs : List (List Nat × E)}

theorem Heirs.born (h : Heirs o heirs) : ∀ w ∈ heirs, Born o w.1 w.2 := by
  intro w hw
  cases h with
  | none => exact absurd hw List.not_mem_nil
  | @split e cs splits hcs =>
      obtain ⟨j, hj, rfl⟩ := List.mem_mapIdx.mp hw
      obtain ⟨c, at', step⟩ := getElem?_children hcs (hj.trans_eq (length_children hcs))
      obtain ⟨_, rfl⟩ := List.getElem?_eq_some_iff.mp at'
      exact .child splits (hj.trans_eq (length_children hcs)) step

theorem Heirs.mem_of_born (h : Heirs o heirs) {key : List Nat} {c : E} (born : Born o key c) :
    (key, c) ∈ heirs := by
  obtain ⟨splits, hj, step⟩ := born
  cases h with
  | none idle => exact absurd ⟨splits.granted, splits.answer⟩ idle
  | split splits' hcs =>
      cases splits.first.symm.trans splits'.first
      obtain ⟨c', at', step'⟩ := getElem?_children hcs hj
      cases step.symm.trans step'
      obtain ⟨hj, rfl⟩ := List.getElem?_eq_some_iff.mp at'
      exact List.mem_mapIdx.mpr ⟨_, hj, rfl⟩

theorem Heirs.exists_append (h : Heirs o heirs) : ∀ w ∈ heirs, ∃ j, w.1 = o.key ++ [j] := by
  rintro ⟨key, c⟩ hw
  cases h.born _ hw with
  | child => exact ⟨_, rfl⟩

theorem Heirs.parted (h : Heirs o heirs) : heirs.Pairwise fun v w => Parts v.1 w.1 := by
  cases h with
  | none => exact .nil
  | split =>
      refine List.pairwise_iff_getElem.mpr fun i j hi hj less => ?_
      simpa using parts_append _ less

end

/-! ## Where the offers come from -/

theorem forall_getElem?_concat {α : Type} {P : List α → α → Prop} {xs : List α} {x : α}
    (h : ∀ (n : Nat) y, xs[n]? = some y → P (xs.take n) y) (hx : P xs x) :
    ∀ (n : Nat) y, (xs ++ [x])[n]? = some y → P ((xs ++ [x]).take n) y := by
  intro n y hy
  obtain inside | outside := Nat.lt_or_ge n xs.length
  · rw [List.getElem?_append_left inside] at hy
    rw [List.take_append_of_le_length inside.le]
    exact h n y hy
  · rw [List.getElem?_append_right outside, List.getElem?_singleton] at hy
    obtain ⟨last, rfl⟩ : n - xs.length = 0 ∧ x = y := by simpa using hy
    obtain rfl : n = xs.length := by omega
    rwa [List.take_left]

section

variable {limits : Limits} {leaves : List E} {s t : Track E}

/-- Every offer is about a leaf or about a child of something refined before. -/
structure Track.Sourced (limits : Limits) (leaves : List E) (t : Track E) : Prop where
  made : ∀ (n : Nat) o, t.log[n]? = some o → Due limits leaves (t.log.take n) o
  born : ∀ w ∈ t.waiting, ∃ parent ∈ t.log, Born parent w.1 w.2

theorem Track.Step.sourced (step : s.Step limits leaves t) (h : s.Sourced limits leaves) :
    t.Sourced limits leaves := by
  cases step with
  | leaf about heirs =>
      refine ⟨forall_getElem?_concat h.made (.inl ⟨_, about⟩), ?_⟩
      exact fun w hw => ⟨_, List.mem_concat_self, heirs.born w hw⟩
  | place => exact ⟨h.made, fun w hw => h.born w (List.mem_cons_of_mem _ hw)⟩
  | child recursive can single granted heirs =>
      obtain ⟨parent, earlier, born⟩ := h.born _ List.mem_cons_self
      refine ⟨forall_getElem?_concat h.made
        (.inr ⟨recursive, ⟨parent, earlier, _, born, single, can⟩, granted⟩), ?_⟩
      intro w hw
      rcases List.mem_append.mp hw with hw | hw
      · exact ⟨_, List.mem_concat_self, heirs.born w hw⟩
      · obtain ⟨parent, earlier, born⟩ := h.born w (List.mem_cons_of_mem _ hw)
        exact ⟨parent, List.mem_append_left _ earlier, born⟩

/-! ## The order of the offers -/

/-- The key belongs to a leaf before position `next`, or to something below one. -/
def StartsBelow (next : Nat) (key : List Nat) : Prop := ∃ i < next, ∃ p, key = i :: p

theorem StartsBelow.mono {next next' : Nat} {key : List Nat} (h : StartsBelow next key)
    (le : next ≤ next') : StartsBelow next' key := by
  obtain ⟨i, less, p, whole⟩ := h
  exact ⟨i, less.trans_le le, p, whole⟩

theorem StartsBelow.append {next : Nat} {key : List Nat} (h : StartsBelow next key) (j : Nat) :
    StartsBelow next (key ++ [j]) := by
  obtain ⟨i, less, p, rfl⟩ := h
  exact ⟨i, less, p ++ [j], rfl⟩

theorem StartsBelow.precedes {next : Nat} {key : List Nat} (h : StartsBelow next key) :
    Precedes key [next] := by
  obtain ⟨i, less, p, rfl⟩ := h
  exact (parts_cons less p []).precedes

/-- The keys in the log increase, and go on with those of the children that wait. -/
structure Track.Arranged (t : Track E) : Prop where
  log : t.log.Pairwise fun a b => Precedes a.key b.key
  ahead : ∀ o ∈ t.log, ∀ w ∈ t.waiting, Precedes o.key w.1
  parted : t.waiting.Pairwise fun v w => Parts v.1 w.1
  logStarts : ∀ o ∈ t.log, StartsBelow t.next o.key
  waitStarts : ∀ w ∈ t.waiting, StartsBelow t.next w.1

omit [Element E] in
theorem Track.Arranged.tail {log : List (Offer E)} {next : Nat} {w : List Nat × E}
    {waiting : List (List Nat × E)} (h : Track.Arranged ⟨log, next, w :: waiting⟩) :
    Track.Arranged ⟨log, next, waiting⟩ where
  log := h.log
  ahead o ho v hv := h.ahead o ho v (List.mem_cons_of_mem w hv)
  parted := (List.pairwise_cons.mp h.parted).2
  logStarts := h.logStarts
  waitStarts v hv := h.waitStarts v (List.mem_cons_of_mem w hv)

/-- An offer comes behind the log and before what waits, and so do its heirs. -/
theorem arranged_concat {log : List (Offer E)} {next next' : Nat} {o : Offer E}
    {heirs waiting : List (List Nat × E)} (h : Track.Arranged ⟨log, next, waiting⟩)
    (le : next ≤ next') (starts : StartsBelow next' o.key)
    (behind : ∀ x ∈ log, Precedes x.key o.key) (before : ∀ w ∈ waiting, Parts o.key w.1)
    (heirs' : Heirs o heirs) : Track.Arranged ⟨log ++ [o], next', heirs ++ waiting⟩ where
  log := by
    refine List.pairwise_append.mpr ⟨h.log, List.pairwise_singleton _ _, ?_⟩
    exact fun x hx => List.forall_mem_singleton.mpr (behind x hx)
  ahead := by
    refine List.forall_mem_append.mpr ⟨fun x hx => ?_, List.forall_mem_singleton.mpr ?_⟩
    · refine List.forall_mem_append.mpr ⟨fun w hw => ?_, h.ahead x hx⟩
      obtain ⟨j, key⟩ := heirs'.exists_append w hw
      exact key ▸ (behind x hx).append j
    · refine List.forall_mem_append.mpr ⟨fun w hw => ?_, fun w hw => (before w hw).precedes⟩
      obtain ⟨j, key⟩ := heirs'.exists_append w hw
      exact key ▸ precedes_append o.key j
  parted := by
    refine List.pairwise_append.mpr ⟨heirs'.parted, h.parted, fun v hv w hw => ?_⟩
    obtain ⟨j, key⟩ := heirs'.exists_append v hv
    exact key ▸ (before w hw).append [j]
  logStarts := List.forall_mem_append.mpr
    ⟨fun x hx => (h.logStarts x hx).mono le, List.forall_mem_singleton.mpr starts⟩
  waitStarts := by
    refine List.forall_mem_append.mpr ⟨fun w hw => ?_, fun w hw => (h.waitStarts w hw).mono le⟩
    obtain ⟨j, key⟩ := heirs'.exists_append w hw
    exact key ▸ starts.append j

theorem OfLeaf.span_pos {before : List (Offer E)} {i : Nat} {o : Offer E}
    (h : OfLeaf limits leaves before i o) : 0 < o.span := by
  have some' : 0 < o.elements.length := by
    have presented := h.presented
    generalize leaves.drop i = rest at presented
    generalize o.elements = offered at presented
    cases presented with
    | family _ hf => exact List.length_pos_of_ne_nil (children_ne_nil hf)
    | single => exact Nat.one_pos
  unfold Offer.span
  split
  · exact some'
  · exact Nat.one_pos

theorem Track.Step.arranged (step : s.Step limits leaves t) (h : s.Arranged) : t.Arranged := by
  cases step with
  | @leaf log next o heirs about heirs' =>
      have later : next < next + o.span := Nat.lt_add_of_pos_right about.span_pos
      have arranged := arranged_concat h later.le ⟨next, later, [], about.key⟩
        (fun x hx => about.key ▸ (h.logStarts x hx).precedes)
        (fun w hw => absurd hw List.not_mem_nil) heirs'
      rwa [List.append_nil] at arranged
  | place => exact h.tail
  | child _ _ _ _ heirs' =>
      exact arranged_concat h.tail le_rfl (h.waitStarts _ List.mem_cons_self)
        (fun x hx => h.ahead x hx _ List.mem_cons_self) (List.pairwise_cons.mp h.parted).1 heirs'

/-! ## Which leaves are offered -/

/-- The leaves before the next position have been offered as the first of what was offered, but
for those that were skipped. -/
structure Track.Covered (leaves : List E) (t : Track E) : Prop where
  deep : ∀ w ∈ t.waiting, 1 < w.1.length
  spans : ∀ o ∈ t.log, ∀ k, o.key = [k] → k + o.span ≤ t.next
  first : ∀ o ∈ t.log, ∀ k, o.key = [k] → o.elements.head? = leaves[k]?
  reached : ∀ i < t.next, (∃ o ∈ t.log, o.key = [i]) ↔ ¬ Skipped t.log i

theorem Presented.head?_eq_getElem? {i : Nat} {offered : List E}
    (h : Presented (leaves.drop i) offered) : offered.head? = leaves[i]? := by
  cases here : leaves.drop i with
  | nil =>
      rw [here] at h
      generalize none : ([] : List E) = rest at h
      cases h with
      | family _ hf => exact absurd (List.append_eq_nil_iff.mp none.symm).1 (children_ne_nil hf)
      | single => cases none
  | cons e rest =>
      rw [here] at h
      rw [h.head?_eq, ← Nat.add_zero i, ← List.getElem?_drop, here]
      rfl

theorem Heirs.deep {o : Offer E} {heirs : List (List Nat × E)} (h : Heirs o heirs)
    (some' : 0 < o.key.length) : ∀ w ∈ heirs, 1 < w.1.length := by
  intro w hw
  obtain ⟨j, key⟩ := h.exists_append w hw
  rw [key, List.length_append, List.length_singleton]
  exact Nat.succ_lt_succ some'

theorem Track.Step.covered (step : s.Step limits leaves t) (h : s.Covered leaves) :
    t.Covered leaves := by
  cases step with
  | @leaf log next o heirs about heirs' =>
      have key := about.key
      refine ⟨heirs'.deep (key ▸ Nat.one_pos), ?_, ?_, ?_⟩
      · refine List.forall_mem_append.mpr ⟨fun x hx k hk => ?_, List.forall_mem_singleton.mpr ?_⟩
        · exact (h.spans x hx k hk).trans (Nat.le_add_right _ _)
        · intro k hk
          cases key.symm.trans hk
          exact Nat.le_refl _
      · refine List.forall_mem_append.mpr ⟨h.first, List.forall_mem_singleton.mpr fun k hk => ?_⟩
        cases key.symm.trans hk
        exact about.presented.head?_eq_getElem?
      · exact reached_concat key h.spans h.reached
  | place => exact ⟨fun w hw => h.deep w (List.mem_cons_of_mem _ hw), h.spans, h.first, h.reached⟩
  | @child log next c o waiting heirs _ _ _ _ heirs' =>
      have below : 1 < o.key.length := h.deep _ List.mem_cons_self
      have differ : ∀ k, o.key ≠ [k] := by
        intro k same
        rw [same] at below
        exact absurd below (Nat.lt_irrefl 1)
      refine ⟨?_, ?_, ?_, ?_⟩
      · exact List.forall_mem_append.mpr ⟨heirs'.deep (Nat.zero_lt_of_lt below),
          fun w hw => h.deep w (List.mem_cons_of_mem _ hw)⟩
      · exact List.forall_mem_append.mpr ⟨h.spans,
          List.forall_mem_singleton.mpr fun k hk => absurd hk (differ k)⟩
      · exact List.forall_mem_append.mpr ⟨h.first,
          List.forall_mem_singleton.mpr fun k hk => absurd hk (differ k)⟩
      · intro i hi
        rw [exists_mem_concat_iff (differ i), h.reached i hi, skipped_concat_iff]
        simp [differ]

/-! ## Which children are offered -/

/-- In a recursive pass a child that is not too fine has been offered or waits for its turn, or
nothing is left of the budget. -/
def Track.Thorough (limits : Limits) (t : Track E) : Prop :=
  limits.recursive = true → ∀ parent ∈ t.log, ∀ key c, Born parent key c →
    (∃ l, level c = .ok l ∧ l < limits.effectiveMaxLevel E) →
      (∃ o ∈ t.log, o.key = key ∧ o.elements = [c]) ∨ (key, c) ∈ t.waiting ∨
        limits.budget.canRefine (refinementsIn t.log) = false

theorem Track.Step.thorough (step : s.Step limits leaves t) (h : s.Thorough limits) :
    t.Thorough limits := by
  intro again parent hp key c born coarse
  cases step with
  | leaf about heirs =>
      rcases List.mem_append.mp hp with earlier | last
      · rcases h again parent earlier key c born coarse with ⟨o, ho, same⟩ | waits | spent
        · exact .inl ⟨o, List.mem_append_left _ ho, same⟩
        · exact absurd waits List.not_mem_nil
        · exact .inr (.inr (canRefine_concat spent))
      · rw [List.mem_singleton.mp last] at born
        exact .inr (.inl (heirs.mem_of_born born))
  | place refused =>
      rcases h again parent hp key c born coarse with offered | waits | spent
      · exact .inl offered
      · rcases List.mem_cons.mp waits with turn | waits
        · cases turn
          refine .inr (.inr (Bool.eq_false_iff.mpr fun can => ?_))
          exact refused ⟨again, coarse, can⟩
        · exact .inr (.inl waits)
      · exact .inr (.inr spent)
  | child _ _ single _ heirs =>
      rcases List.mem_append.mp hp with earlier | last
      · rcases h again parent earlier key c born coarse with ⟨o, ho, same⟩ | waits | spent
        · exact .inl ⟨o, List.mem_append_left _ ho, same⟩
        · rcases List.mem_cons.mp waits with turn | waits
          · cases turn
            exact .inl ⟨_, List.mem_concat_self, rfl, single⟩
          · exact .inr (.inl (List.mem_append_right _ waits))
        · exact .inr (.inr (canRefine_concat spent))
      · rw [List.mem_singleton.mp last] at born
        exact .inr (.inl (List.mem_append_left _ (heirs.mem_of_born born)))

/-! ## All of it -/

structure Track.Lawful (limits : Limits) (leaves : List E) (t : Track E) : Prop where
  sourced : t.Sourced limits leaves
  arranged : t.Arranged
  covered : t.Covered leaves
  thorough : t.Thorough limits

theorem Track.Step.lawful (step : s.Step limits leaves t) (h : s.Lawful limits leaves) :
    t.Lawful limits leaves :=
  ⟨step.sourced h.sourced, step.arranged h.arranged, step.covered h.covered,
    step.thorough h.thorough⟩

theorem lawful_start (limits : Limits) (leaves : List E) :
    Track.Lawful limits leaves ⟨[], 0, []⟩ where
  sourced := ⟨nofun, nofun⟩
  arranged := ⟨.nil, nofun, .nil, nofun, nofun⟩
  covered := ⟨nofun, nofun, nofun, nofun⟩
  thorough _ := nofun

theorem exists_track [LawfulNavigation E] {Client : Type} {policy : Policy Client E}
    {client : Client} {stage : Stage Client E} (valid : ∀ d ∈ leaves, Valid d)
    (h : Moves limits policy ⟨[], leaves, .start client⟩ stage) :
    ∃ t, Tracks policy client leaves stage t ∧ t.Lawful limits leaves := by
  induction h with
  | refl =>
      exact ⟨⟨[], 0, []⟩, ⟨logs_start policy client, rfl, rfl⟩, lawful_start limits leaves⟩
  | tail _ move ih =>
      obtain ⟨t, tracks, lawful⟩ := ih
      obtain ⟨t', step, tracks'⟩ := tracks.exists_step valid move
      exact ⟨t', tracks', step.lawful lawful⟩

end

/-- What holds of all that was offered in a pass over `leaves`. -/
structure Contract (limits : Limits) (leaves : List E) (log : List (Offer E)) : Prop where
  /-- a leaf is offered at its position, with the family that starts there if there is one; all
  else are children of what was refined before, one by one, in a recursive pass -/
  due : ∀ (n : Nat) o, log[n]? = some o → Due limits leaves (log.take n) o
  /-- the leaves come in order, and between them the children in pre-order -/
  order : log.Pairwise fun a b => Precedes a.key b.key
  once : ∀ i e, leaves[i]? = some e → ¬ Skipped log i →
    ∃! n : Nat, ∃ o, log[n]? = some o ∧ o.key = [i] ∧ o.elements.head? = some e
  skipped : ∀ i, Skipped log i → ∀ o ∈ log, o.key ≠ [i]
  /-- a child that is not too fine is left out only if the budget is spent -/
  thorough : limits.recursive = true → ∀ parent ∈ log, ∀ key c, Born parent key c →
    (∃ l, level c = .ok l ∧ l < limits.effectiveMaxLevel E) →
      (∃ o ∈ log, o.key = key ∧ o.elements = [c]) ∨
        limits.budget.canRefine (refinementsIn log) = false

theorem Track.Lawful.contract {limits : Limits} {leaves : List E} {log : List (Offer E)}
    {next : Nat} (h : Track.Lawful limits leaves ⟨log, next, []⟩) (all : leaves.length ≤ next) :
    Contract limits leaves log where
  due := h.sourced.made
  order := h.arranged.log
  once := by
    intro i e he reached
    obtain ⟨within, _⟩ := List.getElem?_eq_some_iff.mp he
    obtain ⟨o, ho, key⟩ := (h.covered.reached i (within.trans_le all)).mpr reached
    obtain ⟨n, at'⟩ := List.getElem?_of_mem ho
    refine ⟨n, ⟨o, at', key, (h.covered.first o ho i key).trans he⟩, ?_⟩
    rintro m ⟨o', at'', key', _⟩
    obtain ⟨hn, rfl⟩ := List.getElem?_eq_some_iff.mp at'
    obtain ⟨hm, rfl⟩ := List.getElem?_eq_some_iff.mp at''
    have order := List.pairwise_iff_getElem.mp h.arranged.log
    rcases lt_trichotomy m n with less | same | less
    · have precedes := order m n hm hn less
      rw [key, key'] at precedes
      exact absurd precedes (not_precedes_self _)
    · exact same
    · have precedes := order n m hn hm less
      rw [key, key'] at precedes
      exact absurd precedes (not_precedes_self _)
  skipped := by
    intro i skip o ho key
    obtain ⟨x, hx, coarsened, k, hk, behind, room⟩ := skip
    have span := Offer.span_of_coarsen coarsened ▸ h.covered.spans x hx k hk
    exact (h.covered.reached i (room.trans_le span)).mp ⟨o, ho, key⟩
      ⟨x, hx, coarsened, k, hk, behind, room⟩
  thorough := by
    intro again parent hp key c born coarse
    rcases h.thorough again parent hp key c born coarse with offered | waits | spent
    · exact .inl offered
    · exact absurd waits List.not_mem_nil
    · exact .inr spent

/-- Whatever a policy answers, and whatever state it keeps, a pass that finishes has asked it in
this way; and the answers that were granted are the changes that it reports. -/
theorem offers_follow_contract (s : Shape) {Client : Type} {leaves : Leaves s.Carrier}
    (valid : ∀ e ∈ leaves.toList, Valid e) (limits : Limits) {policy : Policy Client s.Carrier}
    {client : Client} {out : Outcome Client s.Carrier}
    (ran : adapt limits policy client leaves = .ok out) :
    ∃ log : List (Offer s.Carrier), log.map Offer.elements = out.offers ∧
      Answered policy client log out.client ∧ Contract limits leaves.toList log ∧
      out.groups.map Transition.removed = (log.filter Offer.granted).map Offer.replaced ∧
      out.stats.refinements = refinementsIn log ∧ out.stats.coarsenings = coarseningsIn log := by
  obtain ⟨p, exchanges, moves, rfl⟩ := moves_of_adapt valid ran
  obtain ⟨⟨log, next, waiting⟩, ⟨logs, pending, remaining⟩, lawful⟩ := exists_track valid moves
  obtain rfl := List.map_eq_nil_iff.mp pending
  exact ⟨log, logs.offers, logs.answered, lawful.contract (List.drop_eq_nil_iff.mp remaining),
    logs.groups, logs.refinements, logs.coarsenings⟩

/-- A leaf is refined, and two of its children after it, which is all that the budget allows; the
family behind it is not to be coarsened so far, and none of its members is offered again. -/
theorem offers_follow_contract_quad :
    (∀ e ∈ fiveQuads.toList, Valid e) ∧
      ∃ out, adapt ⟨2, 3, true, ⟨3, 0⟩⟩ (seesaw Quad) 0 fiveQuads = .ok out ∧
        ∃ log : List (Offer Quad), log.map Offer.elements = out.offers ∧
          out.offers.map List.length = [1, 1, 1, 4] ∧
          Answered (seesaw Quad) 0 log 4 ∧
          Contract ⟨2, 3, true, ⟨3, 0⟩⟩ fiveQuads.toList log ∧
          out.groups.map Transition.removed = (log.filter Offer.granted).map Offer.replaced ∧
          refinementsIn log = 3 ∧ coarseningsIn log = 0 := by
  have valid : ∀ e ∈ fiveQuads.toList, Valid e := by decide
  have separate : Separate fiveQuads := by
    unfold Separate
    decide
  have cooperates := (seesaw_willing Valid).cooperates hereditary_valid ⟨2, 3, true, ⟨3, 0⟩⟩ 0 valid
  obtain ⟨out, ran, _⟩ := exists_adapt cooperates valid ((separate_iff valid).mp separate)
  have result : (adapt ⟨2, 3, true, ⟨3, 0⟩⟩ (seesaw Quad) 0 fiveQuads).map
      (fun out => (out.offers.map List.length, out.client, out.stats)) =
        .ok ([1, 1, 1, 4], 4, ⟨3, 0, 4⟩) := by cbv
  rw [ran] at result
  obtain ⟨lengths, rest⟩ := Prod.mk.inj (Except.ok.inj result)
  obtain ⟨client, stats⟩ := Prod.mk.inj rest
  obtain ⟨log, offers, answered, contract, groups, refinements, coarsenings⟩ :=
    offers_follow_contract .quad valid ⟨2, 3, true, ⟨3, 0⟩⟩ ran
  rw [client] at answered
  rw [stats] at refinements coarsenings
  exact ⟨valid, out, ran, log, offers, lengths, answered, contract, groups, refinements.symm,
    coarsenings.symm⟩

end MeshCurve.Adapt
