import MeshCurve.Adapt.Pass

/-!
# Policies and the runs they take part in

What a run expects of its policy concerns the offers of that run and nothing else: each
of them has an answer, given in the state that the answers before it have led to, and no
answer asks to coarsen a single one of the leaves.  A run that fails at an offer has that
offer last in its log, so the log of any run, finished or not, says what was expected.
-/

namespace MeshCurve.Adapt

variable {Client E α β : Type}

/-! ## Answers to a series of offers -/

/-- The state of the client after it has answered the offers one by one. -/
def hear (policy : Policy Client E) (client : Client) (offers : List (List E)) :
    Except Fault Client :=
  offers.foldlM (fun c offered => do return (← policy c offered).2) client

theorem hear_append (policy : Policy Client E) (client : Client) (offers more : List (List E)) :
    hear policy client (offers ++ more) =
      hear policy client offers >>= fun c => hear policy c more :=
  List.foldlM_append

theorem hear_cons {policy : Policy Client E} {c c' : Client} {offered : List E} {a : Action}
    (answer : policy c offered = .ok (a, c')) (offers : List (List E)) :
    hear policy c (offered :: offers) = hear policy c' offers := by
  rw [hear, List.foldlM_cons, answer]
  rfl

theorem hear_singleton_eq_ok_iff {policy : Policy Client E} {c c' : Client} {offered : List E} :
    hear policy c [offered] = .ok c' ↔ ∃ a, policy c offered = .ok (a, c') := by
  constructor
  · intro h
    rw [hear, List.foldlM_cons] at h
    obtain ⟨_, heard, same⟩ := bind_eq_ok_iff.mp h
    obtain ⟨⟨a, _⟩, answer, heard⟩ := bind_eq_ok_iff.mp heard
    cases heard
    cases same
    exact ⟨a, answer⟩
  · rintro ⟨a, answer⟩
    exact hear_cons answer []

/-- The policy answers each of the offers, and never asks to coarsen a single one of
`leaves`. -/
structure Obliges (policy : Policy Client E) (leaves : List E) (client : Client)
    (offers : List (List E)) : Prop where
  answers : ∃ c, hear policy client offers = .ok c
  single {before after : List (List E)} {e : E} {c c' : Client} :
    offers = before ++ [e] :: after → hear policy client before = .ok c → e ∈ leaves →
      policy c [e] ≠ .ok (.coarsen, c')

theorem Obliges.nil {policy : Policy Client E} {leaves : List E} {client : Client} :
    Obliges policy leaves client [] where
  answers := ⟨client, rfl⟩
  single none := by
    cases List.append_eq_nil_iff.mp none.symm with
    | intro _ none => cases none

theorem Obliges.cons {policy : Policy Client E} {leaves : List E} {c c' : Client} {a : Action}
    {offered : List E} {offers : List (List E)} (answer : policy c offered = .ok (a, c'))
    (whole : a = .coarsen → ∀ e ∈ leaves, offered ≠ [e]) (h : Obliges policy leaves c' offers) :
    Obliges policy leaves c (offered :: offers) where
  answers := by
    obtain ⟨last, heard⟩ := h.answers
    exact ⟨last, (hear_cons answer offers).trans heard⟩
  single {before after e c₁ c₂} log heard he coarsened := by
    cases before with
    | nil =>
        obtain ⟨rfl, _⟩ := List.cons.inj log
        cases heard
        cases answer.symm.trans coarsened
        exact whole rfl e he rfl
    | cons _ before =>
        obtain ⟨rfl, rfl⟩ := List.cons.inj log
        rw [hear_cons answer] at heard
        exact h.single rfl heard he coarsened

/-- The offers of a run, whether it came to its end or not. -/
def offersIn (log : α → List (List E)) : Attempt Client E α → List (List E)
  | .ok a => log a
  | .error stop => stop.reached.offers.toList

/-- What a pass expects of its policy. -/
def Cooperates [Element E] [DecidableEq E] (limits : Limits) (policy : Policy Client E)
    (client : Client) (leaves : Leaves E) : Prop :=
  Obliges policy leaves.toList client
    (offersIn Outcome.offers (adapt limits policy client leaves))

/-- The pairing of the leaves makes no offers. -/
theorem offersIn_adapt [Element E] [DecidableEq E] (limits : Limits) (policy : Policy Client E)
    (client : Client) (leaves : Leaves E) :
    offersIn Outcome.offers (adapt limits policy client leaves) =
      offersIn (·.offers.toList) (sweep limits policy leaves.toList (.start client)) := by
  unfold adapt
  cases sweep limits policy leaves.toList (.start client) with
  | error stop => rfl
  | ok p =>
      rw [ok_bind]
      cases Exchange.pair leaves.toList p.leaves.toList <;> rfl

/-! ## Where a run stops -/

/-- The client has come from the state of one progress to that of the other by answering
the offers in between. -/
def Reaches (policy : Policy Client E) (start p : Progress Client E) : Prop :=
  ∃ offers, p.offers.toList = start.offers.toList ++ offers ∧
    hear policy start.client offers = .ok p.client

/-- The run has stopped at an offer of elements with property `P`, to which the policy has
no answer, or asks to coarsen a single one of `leaves`. -/
def Balks (P : E → Prop) (policy : Policy Client E) (leaves : List E)
    (start : Progress Client E) (run : Attempt Client E α) : Prop :=
  ∃ stop p offered, run = .error stop ∧ stop.reached.offers = p.offers.push offered ∧
    Reaches policy start p ∧ (offered ≠ [] ∧ ∀ e ∈ offered, P e) ∧
    ∀ a c, policy p.client offered = .ok (a, c) → a = .coarsen ∧ ∃ e ∈ leaves, offered = [e]

section

variable {P : E → Prop} {policy : Policy Client E} {leaves : List E}
  {start p : Progress Client E}

@[refl] theorem Reaches.refl (policy : Policy Client E) (p : Progress Client E) :
    Reaches policy p p :=
  ⟨[], (List.append_nil _).symm, rfl⟩

theorem Reaches.answer (h : Reaches policy start p) {offered : List E} {a : Action} {c : Client}
    (answer : policy p.client offered = .ok (a, c)) :
    Reaches policy start { p with offers := p.offers.push offered, client := c } := by
  obtain ⟨offers, log, heard⟩ := h
  refine ⟨offers ++ [offered], ?_, ?_⟩
  · rw [Array.toList_push, log, List.append_assoc]
  · rw [hear_append, heard, ok_bind]
    exact hear_singleton_eq_ok_iff.mpr ⟨a, answer⟩

theorem not_balks_ok (a : α) : ¬ Balks P policy leaves start (.ok a) := by
  rintro ⟨_, _, _, stopped, _⟩
  cases stopped

theorem Balks.bind {run : Attempt Client E α} (h : Balks P policy leaves start run)
    (f : α → Attempt Client E β) : Balks P policy leaves start (run >>= f) := by
  obtain ⟨stop, p, offered, rfl, why⟩ := h
  exact ⟨stop, p, offered, rfl, why⟩

/-- A policy that meets what the offers since the start expect of it does not stop the run. -/
theorem Obliges.not_balks {log : α → List (List E)} {run : Attempt Client E α}
    (h : Obliges policy leaves start.client ((offersIn log run).drop start.offers.size)) :
    ¬ Balks P policy leaves start run := by
  rintro ⟨stop, p, offered, rfl, last, ⟨before, log', heard⟩, _, bad⟩
  have since : (offersIn log (.error stop : Attempt Client E α)).drop start.offers.size =
      before ++ [offered] := by
    rw [offersIn, last, Array.toList_push, log', List.append_assoc, ← Array.length_toList,
      List.drop_left]
  rw [since] at h
  obtain ⟨c, heard'⟩ := h.answers
  rw [hear_append, heard, ok_bind] at heard'
  obtain ⟨a, answer⟩ := hear_singleton_eq_ok_iff.mp heard'
  obtain ⟨rfl, e, he, rfl⟩ := bad a c answer
  exact h.single rfl heard he answer

theorem Cooperates.not_balks [Element E] [DecidableEq E] {limits : Limits} {client : Client}
    {leaves : Leaves E} (h : Cooperates limits policy client leaves) :
    ¬ Balks P policy leaves.toList (.start client)
      (sweep limits policy leaves.toList (.start client)) := by
  rw [Cooperates, offersIn_adapt] at h
  exact h.not_balks

theorem exists_ask {offered : List E}
    (h : ¬ Balks P policy leaves start (p.ask policy offered)) (reach : Reaches policy start p)
    (some' : offered ≠ []) (hP : ∀ e ∈ offered, P e) :
    ∃ a p', p.ask policy offered = .ok (a, p') ∧ Reaches policy start p' ∧
      p'.leaves = p.leaves ∧ p'.offers = p.offers.push offered ∧
      policy p.client offered = .ok (a, p'.client) := by
  cases answer : policy p.client offered with
  | ok result =>
      obtain ⟨a, c⟩ := result
      refine ⟨a, _, ?_, reach.answer answer, rfl, rfl, rfl⟩
      rw [Progress.ask, during_of_ok answer]
      rfl
  | error fault =>
      have stopped : p.ask policy offered =
          .error ⟨fault, { p with offers := p.offers.push offered }⟩ := by
        rw [Progress.ask, during, answer]
        rfl
      refine absurd ⟨_, p, offered, stopped, rfl, reach, ⟨some', hP⟩, ?_⟩ h
      intro a c answer'
      cases answer.symm.trans answer'

end

/-! ## Policies that answer any offer -/

/-- In every state the policy answers what it is offered, and it coarsens nothing that is
offered alone. -/
def Willing (P : E → Prop) (policy : Policy Client E) : Prop :=
  ∀ c offered, offered ≠ [] → (∀ e ∈ offered, P e) →
    ∃ a c', policy c offered = .ok (a, c') ∧ (a = .coarsen → 1 < offered.length)

theorem Willing.not_balks {P : E → Prop} {policy : Policy Client E} (h : Willing P policy)
    {leaves : List E} {start : Progress Client E} {run : Attempt Client E α} :
    ¬ Balks P policy leaves start run := by
  rintro ⟨_, p, offered, _, _, _, ⟨some', hP⟩, bad⟩
  obtain ⟨a, c, answer, several⟩ := h p.client offered some' hP
  obtain ⟨rfl, e, _, rfl⟩ := bad a c answer
  exact absurd (several rfl) (Nat.lt_irrefl 1)

/-- Merges every family and refines every other leaf, counting the offers. -/
def seesaw (E : Type) : Policy Nat E := fun n offered =>
  .ok (if offered.length = 1 then .refine else .coarsen, n + 1)

theorem seesaw_willing (P : E → Prop) : Willing P (seesaw E) := by
  intro n offered some' _
  refine ⟨_, n + 1, rfl, ?_⟩
  have := List.length_pos_iff.mpr some'
  split
  · exact nofun
  · omega

/-- Answers as written down beforehand, and nothing after the last of these answers. -/
def scripted (E : Type) : Policy (List Action) E
  | [], _ => .error .index
  | a :: later, _ => .ok (a, later)

end MeshCurve.Adapt
