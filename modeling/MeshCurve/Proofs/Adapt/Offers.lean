import MeshCurve.Proofs.Adapt.Moves
import MeshCurve.Proofs.Order

/-!
# The offers of a pass

What a policy gets to see is written down in a log: every offer with its answer, whether the
answer was granted, and a key that says what the offer is about.  The key of a leaf of the input
is its position, and that of a new child has its child number behind the key of the offer that
made it.  A pass writes its log while it keeps a list of the children that still wait for their
turn, each with the key that its offer would have.
-/

namespace MeshCurve.Adapt

open Element

/-! ## Logs -/

structure Offer (E : Type) where
  key : List Nat
  elements : List E
  answer : Action
  granted : Bool
deriving DecidableEq, Repr

variable {Client E : Type}

namespace Offer

/-- The offer makes `e` give way to its children. -/
structure Splits (o : Offer E) (e : E) : Prop where
  granted : o.granted = true
  answer : o.answer = .refine
  first : o.elements.head? = some e

/-- What has to give way if the answer is granted. -/
def replaced (o : Offer E) : List E :=
  if o.answer = .coarsen then o.elements else o.elements.take 1

/-- The number of leaves that the answer decides on. -/
def span (o : Offer E) : Nat := if o.answer = .coarsen then o.elements.length else 1

theorem span_of_coarsen {o : Offer E} (h : o.answer = .coarsen) : o.span = o.elements.length :=
  if_pos h

theorem span_of_ne_coarsen {o : Offer E} (h : o.answer ≠ .coarsen) : o.span = 1 := if_neg h

end Offer

def refinementsIn (log : List (Offer E)) : Nat :=
  log.countP fun o => o.granted ∧ o.answer = .refine

def coarseningsIn (log : List (Offer E)) : Nat :=
  log.countP fun o => o.granted ∧ o.answer = .coarsen

/-- The answers are those of the policy, one after the other. -/
inductive Answered (policy : Policy Client E) (start : Client) : List (Offer E) → Client → Prop
  | nil : Answered policy start [] start
  | concat {log : List (Offer E)} {o : Offer E} {c c' : Client} : Answered policy start log c →
      policy c o.elements = .ok (o.answer, c') → Answered policy start (log ++ [o]) c'

/-! ## The log of a progress -/

/-- The log accounts for all that a pass has gathered, the leaves apart. -/
structure Logs (policy : Policy Client E) (client : Client) (p : Progress Client E)
    (log : List (Offer E)) : Prop where
  offers : log.map Offer.elements = p.offers.toList
  answered : Answered policy client log p.client
  groups : p.groups.toList.map Transition.removed = (log.filter Offer.granted).map Offer.replaced
  refinements : p.stats.refinements = refinementsIn log
  coarsenings : p.stats.coarsenings = coarseningsIn log

section

variable {policy : Policy Client E} {client : Client} {p p₁ : Progress Client E}
  {log : List (Offer E)} {offered : List E} {a : Action} {e : E}

theorem logs_start (policy : Policy Client E) (client : Client) :
    Logs policy client (.start client) [] where
  offers := rfl
  answered := .nil
  groups := rfl
  refinements := rfl
  coarsenings := rfl

theorem Logs.refuse (h : Logs policy client p log) (asked : p.ask policy offered = .ok (a, p₁))
    (key : List Nat) : Logs policy client p₁ (log ++ [⟨key, offered, a, false⟩]) := by
  obtain ⟨answer, _, groups, stats⟩ := of_ask asked
  refine ⟨?_, h.answered.concat answer, ?_, ?_, ?_⟩
  · simp [offers_of_ask asked, h.offers]
  · simp [groups, h.groups]
  · simp [stats, h.refinements, refinementsIn]
  · simp [stats, h.coarsenings, coarseningsIn]

theorem Logs.split {cs : List E} (h : Logs policy client p log)
    (asked : p.ask policy offered = .ok (.refine, p₁)) (key : List Nat)
    (first : offered.head? = some e) :
    Logs policy client (p₁.split ⟨.refine, e, cs, [e]⟩)
      (log ++ [⟨key, offered, .refine, true⟩]) := by
  obtain ⟨answer, _, groups, stats⟩ := of_ask asked
  refine ⟨?_, h.answered.concat answer, ?_, ?_, ?_⟩
  · simp [Progress.split, offers_of_ask asked, h.offers]
  · simp [groups, h.groups, Offer.replaced, List.take_one, first]
  · simp [stats, h.refinements, refinementsIn]
  · simp [stats, h.coarsenings, coarseningsIn]

theorem Logs.merge {q : E} (h : Logs policy client p log)
    (asked : p.ask policy offered = .ok (.coarsen, p₁)) (key : List Nat) :
    Logs policy client (p₁.merge ⟨.coarsen, q, [q], offered⟩)
      (log ++ [⟨key, offered, .coarsen, true⟩]) := by
  obtain ⟨answer, _, groups, stats⟩ := of_ask asked
  refine ⟨?_, h.answered.concat answer, ?_, ?_, ?_⟩
  · simp [Progress.merge, offers_of_ask asked, h.offers]
  · simp [groups, h.groups, Offer.replaced]
  · simp [stats, h.refinements, refinementsIn]
  · simp [stats, h.coarsenings, coarseningsIn]

/-- Placing elements leaves no trace in the log. -/
theorem Logs.keep (h : Logs policy client p log) (kept : List E) :
    Logs policy client (p.keep kept) log :=
  ⟨h.offers, h.answered, h.groups, h.refinements, h.coarsenings⟩

theorem Logs.emit (h : Logs policy client p log) (e : E) : Logs policy client (p.emit e) log :=
  ⟨h.offers, h.answered, h.groups, h.refinements, h.coarsenings⟩

end

variable [Element E]

/-! ## Kinds of offers -/

/-- What there is to offer of some leaves: the family that they start with, or else the first of
them. -/
inductive Presented : List E → List E → Prop
  | family {q : E} {family rest : List E} : Valid q → children q = .ok family →
      Presented (family ++ rest) family
  | single {e : E} {rest : List E} :
      (¬ ∃ q, Valid q ∧ children q = .ok ((e :: rest).take (branching E))) →
      Presented (e :: rest) [e]

/-- The limits and what is left of the budget allow to refine `e`. -/
structure CanRefine (limits : Limits) (before : List (Offer E)) (e : E) : Prop where
  level : ∃ l, Element.level e = .ok l ∧ l < limits.effectiveMaxLevel E
  budget : limits.budget.canRefine (refinementsIn before) = true

structure CanCoarsen (limits : Limits) (before : List (Offer E)) (first : E) : Prop where
  level : ∃ l, Element.level first = .ok l ∧ limits.minLevel < l
  budget : limits.budget.canCoarsen (coarseningsIn before) = true

/-- The child `c` of what `parent` splits, under its key. -/
inductive Born (parent : Offer E) : List Nat → E → Prop
  | child {e c : E} {j : Nat} : parent.Splits e → j < branching E → child e j = .ok c →
      Born parent (parent.key ++ [j]) c

/-- An offer about the leaf at position `i`. -/
structure OfLeaf (limits : Limits) (leaves : List E) (before : List (Offer E)) (i : Nat)
    (o : Offer E) : Prop where
  key : o.key = [i]
  presented : Presented (leaves.drop i) o.elements
  /-- only a family can be asked to coarsen -/
  coarsen : o.answer = .coarsen → o.elements.length ≠ 1
  granted : o.granted = true ↔ ∃ e, o.elements.head? = some e ∧
    (o.answer = .refine ∧ CanRefine limits before e ∨
      o.answer = .coarsen ∧ CanCoarsen limits before e)

/-- An offer about a child that the pass has made. -/
structure OfChild (limits : Limits) (before : List (Offer E)) (o : Offer E) : Prop where
  recursive : limits.recursive = true
  born : ∃ parent ∈ before, ∃ c, Born parent o.key c ∧ o.elements = [c] ∧
    CanRefine limits before c
  granted : o.granted = true ↔ o.answer = .refine

/-- What may be offered after what was offered before. -/
def Due (limits : Limits) (leaves : List E) (before : List (Offer E)) (o : Offer E) : Prop :=
  (∃ i, OfLeaf limits leaves before i o) ∨ OfChild limits before o

/-! ## Writing the log -/

/-- A log in the making. -/
structure Track (E : Type) where
  log : List (Offer E)
  /-- the position of the next leaf -/
  next : Nat
  /-- children that have not had their turn yet, with their keys -/
  waiting : List (List Nat × E)

/-- The children that come to wait after an offer. -/
inductive Heirs : Offer E → List (List Nat × E) → Prop
  | none {o : Offer E} : ¬ (o.granted = true ∧ o.answer = .refine) → Heirs o []
  | split {o : Offer E} {e : E} {cs : List E} : o.Splits e → children e = .ok cs →
      Heirs o (cs.mapIdx fun j c => (o.key ++ [j], c))

inductive Track.Step (limits : Limits) (leaves : List E) : Track E → Track E → Prop
  /-- the next leaf is offered -/
  | leaf {log : List (Offer E)} {next : Nat} {o : Offer E} {heirs : List (List Nat × E)} :
      OfLeaf limits leaves log next o → Heirs o heirs →
      Step limits leaves ⟨log, next, []⟩ ⟨log ++ [o], next + o.span, heirs⟩
  /-- the first child that waits is not offered -/
  | place {log : List (Offer E)} {next : Nat} {key : List Nat} {c : E}
      {waiting : List (List Nat × E)} : ¬ (limits.recursive = true ∧ CanRefine limits log c) →
      Step limits leaves ⟨log, next, (key, c) :: waiting⟩ ⟨log, next, waiting⟩
  /-- the first child that waits is offered -/
  | child {log : List (Offer E)} {next : Nat} {c : E} {o : Offer E}
      {waiting heirs : List (List Nat × E)} : limits.recursive = true →
      CanRefine limits log c → o.elements = [c] → (o.granted = true ↔ o.answer = .refine) →
      Heirs o heirs →
      Step limits leaves ⟨log, next, (o.key, c) :: waiting⟩ ⟨log ++ [o], next, heirs ++ waiting⟩

/-! ## Moves as steps of the log -/

section

variable {policy : Policy Client E} {client : Client} {limits : Limits} {p p₁ : Progress Client E}
  {log : List (Offer E)} {e : E} {leaves rest offered : List E} {a : Action}

theorem mayRefine_iff_canRefine (same : p.stats.refinements = refinementsIn log) :
    MayRefine limits p e ↔ CanRefine limits log e := by
  constructor
  · exact fun may => ⟨may.exists_level, same ▸ may.2⟩
  · rintro ⟨⟨l, hl, room⟩, budget⟩
    refine ⟨?_, same.symm ▸ budget⟩
    rw [Limits.allowsRefine, hl, ok_bind, decide_eq_true room, pure_eq_ok]

theorem mayCoarsen_iff_canCoarsen (same : p.stats.coarsenings = coarseningsIn log) :
    MayCoarsen limits p e ↔ CanCoarsen limits log e := by
  constructor
  · exact fun may => ⟨may.exists_level, same ▸ may.2⟩
  · rintro ⟨⟨l, hl, room⟩, budget⟩
    refine ⟨?_, same.symm ▸ budget⟩
    rw [Limits.allowsCoarsen, hl, ok_bind, decide_eq_true room, pure_eq_ok]

/-- An answer does not change the counts, so that what the limits allow is the same before it and
after it. -/
theorem Logs.mayRefine_iff (h : Logs policy client p log)
    (asked : p.ask policy offered = .ok (a, p₁)) :
    MayRefine limits p₁ e ↔ CanRefine limits log e :=
  mayRefine_iff_canRefine ((of_ask asked).2.2.2.symm ▸ h.refinements)

theorem Logs.mayCoarsen_iff (h : Logs policy client p log)
    (asked : p.ask policy offered = .ok (a, p₁)) :
    MayCoarsen limits p₁ e ↔ CanCoarsen limits log e :=
  mayCoarsen_iff_canCoarsen ((of_ask asked).2.2.2.symm ▸ h.coarsenings)

theorem Presented.head?_eq (h : Presented (e :: rest) offered) : offered.head? = some e := by
  generalize whole : e :: rest = xs at h
  cases h with
  | @family q family rest' _ hf =>
      obtain ⟨first, siblings, rfl⟩ := List.exists_cons_of_ne_nil (children_ne_nil hf)
      rw [(List.cons.inj whole).1]
      rfl
  | single =>
      rw [(List.cons.inj whole).1]
      rfl

theorem presented_of_offered [LawfulNavigation E] (valid : ∀ d ∈ e :: rest, Valid d)
    (h : Offered (e :: rest) offered) : Presented (e :: rest) offered := by
  have decides : Decides (isFamily ((e :: rest).take (shape E).numChildren))
      (∃ q, Valid q ∧ children q = .ok ((e :: rest).take (shape E).numChildren)) :=
    isFamily_of_valid fun d hd => valid d (List.mem_of_mem_take hd)
  rcases h with ⟨family, rfl⟩ | ⟨single, rfl⟩
  · obtain ⟨q, hq, hf⟩ := decides.eq_true_iff.mp family
    have presented : Presented ((e :: rest).take (shape E).numChildren ++
        (e :: rest).drop (shape E).numChildren) _ := .family hq hf
    rwa [List.take_append_drop] at presented
  · exact .single (decides.eq_false_iff.mp single)

theorem ofLeaf_of_presented {next : Nat} {granted : Bool} (here : leaves.drop next = e :: rest)
    (presented : Presented (e :: rest) offered) (coarsen : a = .coarsen → offered.length ≠ 1)
    (iff : granted = true ↔ a = .refine ∧ CanRefine limits log e ∨
      a = .coarsen ∧ CanCoarsen limits log e) :
    OfLeaf limits leaves log next ⟨[next], offered, a, granted⟩ where
  key := rfl
  presented := here ▸ presented
  coarsen := coarsen
  granted := by
    rw [iff]
    constructor
    · exact fun h => ⟨e, presented.head?_eq, h⟩
    · rintro ⟨d, head, h⟩
      cases head.symm.trans presented.head?_eq
      exact h

theorem map_snd_mapIdx {α β : Type} (f : Nat → β) (xs : List α) :
    (xs.mapIdx fun j x => (f j, x)).map Prod.snd = xs := by
  simp [List.map_eq_iff]

/-- A pass between two moves, and what its log shows of it. -/
structure Tracks (policy : Policy Client E) (client : Client) (leaves : List E)
    (s : Stage Client E) (t : Track E) : Prop where
  logs : Logs policy client s.progress t.log
  pending : t.waiting.map Prod.snd = s.pending
  remaining : leaves.drop t.next = s.remaining

theorem Tracks.exists_step [LawfulNavigation E] {s s' : Stage Client E} {t : Track E}
    (valid : ∀ d ∈ leaves, Valid d) (move : Move limits policy s s')
    (h : Tracks policy client leaves s t) :
    ∃ t', t.Step limits leaves t' ∧ Tracks policy client leaves s' t' := by
  obtain ⟨log, next, waiting⟩ := t
  obtain ⟨logs, pending, remaining⟩ := h
  have later : ∀ d ∈ s.remaining, Valid d := fun d hd =>
    valid d (List.mem_of_mem_drop (remaining ▸ hd))
  cases move with
  | @keep e rest offered a p p₁ offer asked ha refused =>
      obtain rfl := List.map_eq_nil_iff.mp pending
      have presented := presented_of_offered later offer
      have notAllowed : ¬ (a = .refine ∧ CanRefine limits log e) := fun h =>
        refused h.1 ((logs.mayRefine_iff asked).mpr h.2)
      have about : OfLeaf limits leaves log next ⟨[next], offered, a, false⟩ :=
        ofLeaf_of_presented remaining presented (fun h => absurd h ha) (by simp_all)
      refine ⟨_, .leaf about (.none (by simp)), (logs.refuse asked [next]).keep [e], rfl, ?_⟩
      simp [Offer.span, ha, ← List.drop_drop, remaining]
  | @split e rest offered cs p p₁ offer asked may hcs =>
      obtain rfl := List.map_eq_nil_iff.mp pending
      have presented := presented_of_offered later offer
      have can := (logs.mayRefine_iff asked).mp may
      have about : OfLeaf limits leaves log next ⟨[next], offered, .refine, true⟩ :=
        ofLeaf_of_presented remaining presented (fun h => nomatch h) (by simp [can])
      have heirs : Heirs ⟨[next], offered, .refine, true⟩ _ :=
        .split ⟨rfl, rfl, presented.head?_eq⟩ hcs
      refine ⟨_, .leaf about heirs, logs.split asked [next] presented.head?_eq,
        map_snd_mapIdx _ cs, ?_⟩
      simp [Offer.span, ← List.drop_drop, remaining]
  | @refuse q first siblings rest p p₁ hq hf asked refused =>
      obtain rfl := List.map_eq_nil_iff.mp pending
      have notAllowed : ¬ CanCoarsen limits log first :=
        fun h => refused ((logs.mayCoarsen_iff asked).mpr h)
      have about : OfLeaf limits leaves log next ⟨[next], first :: siblings, .coarsen, false⟩ :=
        ofLeaf_of_presented remaining (.family hq hf) (fun _ => (one_lt_length_children hf).ne')
          (by simp [notAllowed])
      refine ⟨_, .leaf about (.none (by simp)), (logs.refuse asked [next]).keep _, rfl, ?_⟩
      simp [Offer.span, ← List.drop_drop, remaining]
  | @merge q first siblings rest p p₁ hq hf asked may =>
      obtain rfl := List.map_eq_nil_iff.mp pending
      have can := (logs.mayCoarsen_iff asked).mp may
      have about : OfLeaf limits leaves log next ⟨[next], first :: siblings, .coarsen, true⟩ :=
        ofLeaf_of_presented remaining (.family hq hf) (fun _ => (one_lt_length_children hf).ne')
          (by simp [can])
      refine ⟨_, .leaf about (.none (by simp)), logs.merge asked [next], rfl, ?_⟩
      simp [Offer.span, ← List.drop_drop, remaining]
  | place refused =>
      obtain ⟨⟨key, _⟩, waiting, rfl, rfl, rest⟩ := List.map_eq_cons_iff.mp pending
      refine ⟨_, .place ?_, logs.emit _, rest, remaining⟩
      rwa [← mayRefine_iff_canRefine logs.refinements]
  | @settle e pending' rest a p p₁ recursive may asked ha =>
      obtain ⟨⟨key, _⟩, waiting, rfl, rfl, rest⟩ := List.map_eq_cons_iff.mp pending
      have can := (mayRefine_iff_canRefine logs.refinements).mp may
      refine ⟨_, .child (o := ⟨key, [_], a, false⟩) recursive can rfl (by simp [ha])
        (.none (by simp)), (logs.refuse asked key).emit _, rest, remaining⟩
  | @descend e pending' rest cs p p₁ recursive may asked hcs =>
      obtain ⟨⟨key, _⟩, waiting, rfl, rfl, rest⟩ := List.map_eq_cons_iff.mp pending
      have can := (mayRefine_iff_canRefine logs.refinements).mp may
      refine ⟨_, .child (o := ⟨key, [_], .refine, true⟩) recursive can rfl (by simp)
        (.split ⟨rfl, rfl, rfl⟩ hcs), logs.split asked key rfl, ?_, remaining⟩
      rw [List.map_append, map_snd_mapIdx, rest]

end

end MeshCurve.Adapt
