import MeshCurve.Proofs.Adapt.Policies
import MeshCurve.Proofs.Forest

/-!
# What a pass does to the leaves

A pass is a series of changes: a leaf is carried over, or cut up, or a family gives
way to its parent.  A leaf is cut up from the left: of the elements still pending the
first one is emitted or replaced by its children.  Whatever the policy answers, the
limits forbid or the budget refuses only selects among such series.
-/

namespace MeshCurve.Adapt

open Element

variable {Client E : Type}

/-! ## Changes -/

def outgoing (changes : List (Exchange E)) : List E := changes.flatMap Exchange.outgoing

def incoming (changes : List (Exchange E)) : List E := changes.flatMap Exchange.incoming

@[simp] theorem outgoing_nil : outgoing ([] : List (Exchange E)) = [] := rfl

@[simp] theorem incoming_nil : incoming ([] : List (Exchange E)) = [] := rfl

@[simp] theorem outgoing_cons (x : Exchange E) (changes : List (Exchange E)) :
    outgoing (x :: changes) = x.outgoing ++ outgoing changes := rfl

@[simp] theorem incoming_cons (x : Exchange E) (changes : List (Exchange E)) :
    incoming (x :: changes) = x.incoming ++ incoming changes := rfl

theorem outgoing_append (xs ys : List (Exchange E)) :
    outgoing (xs ++ ys) = outgoing xs ++ outgoing ys := List.flatMap_append

theorem incoming_append (xs ys : List (Exchange E)) :
    incoming (xs ++ ys) = incoming xs ++ incoming ys := List.flatMap_append

theorem outgoing_map_carried (leaves : List E) :
    outgoing (leaves.map fun e => ⟨[e], [e]⟩) = leaves := by
  induction leaves with
  | nil => rfl
  | cons e leaves ih => rw [List.map_cons, outgoing_cons, ih, List.singleton_append]

theorem incoming_map_carried (leaves : List E) :
    incoming (leaves.map fun e => ⟨[e], [e]⟩) = leaves := by
  induction leaves with
  | nil => rfl
  | cons e leaves ih => rw [List.map_cons, incoming_cons, ih, List.singleton_append]

variable [Element E]

/-- The elements of the first list cut up into those of the second. -/
inductive Cuts : List E → List E → Prop
  | nil : Cuts [] []
  | emit {e : E} {rest run : List E} : Cuts rest run → Cuts (e :: rest) (e :: run)
  | split {e : E} {rest cs run : List E} : children e = .ok cs → Cuts (cs ++ rest) run →
      Cuts (e :: rest) run

inductive Change : Exchange E → Prop
  | carried (e : E) : Change ⟨[e], [e]⟩
  | split {e : E} {cs run : List E} : children e = .ok cs → Cuts cs run → Change ⟨[e], run⟩
  | merged {p : E} {family : List E} : Valid p → children p = .ok family →
      Change ⟨family, [p]⟩

theorem Cuts.length_le {pending run : List E} (h : Cuts pending run) :
    pending.length ≤ run.length := by
  induction h with
  | nil => exact Nat.le_refl _
  | emit _ ih => exact Nat.succ_le_succ ih
  | split hcs _ ih =>
      have several : 0 < (shape E).numChildren := branching_pos E
      rw [List.length_append, length_children hcs] at ih
      rw [List.length_cons]
      omega

theorem Cuts.exists_below {pending run : List E} (h : Cuts pending run) {r : E} (hr : r ∈ run) :
    ∃ e ∈ pending, Below e r := by
  induction h with
  | nil => exact absurd hr List.not_mem_nil
  | @emit e _ _ _ ih =>
      rcases List.mem_cons.mp hr with rfl | hr
      · exact ⟨_, List.mem_cons_self, .refl _⟩
      · obtain ⟨d, hd, below⟩ := ih hr
        exact ⟨d, List.mem_cons_of_mem _ hd, below⟩
  | @split e _ cs _ hcs _ ih =>
      obtain ⟨d, hd, below⟩ := ih hr
      rcases List.mem_append.mp hd with hd | hd
      · exact ⟨e, List.mem_cons_self, (below_of_mem_children hcs hd).trans below⟩
      · exact ⟨d, List.mem_cons_of_mem _ hd, below⟩

structure Hereditary (P : E → Prop) : Prop where
  valid {e : E} : P e → Valid e
  child {e c : E} {i : Nat} : P e → Element.child e i = .ok c → P c

theorem hereditary_valid [LawfulForest E] : Hereditary (Valid : E → Prop) where
  valid := id
  child he hc := (of_child he hc).1

section

variable {P : E → Prop} {policy : Policy Client E} {all : List E} {limits : Limits}
  {start p : Progress Client E}

theorem Hereditary.mem_children (hP : Hereditary P) {e c : E} {cs : List E} (he : P e)
    (h : children e = .ok cs) (hc : c ∈ cs) : P c := by
  obtain ⟨i, _, hi⟩ := (mem_children_iff h).mp hc
  exact hP.child he hi

/-! ## Cutting up -/

theorem run_of_step {e : E} {rest : List E} {requested : Bool} {next : Refinement Client E}
    (h : Refinement.step limits policy e rest requested p = .ok next) :
    Refinement.run limits policy (e :: rest) requested p =
      Refinement.run limits policy next.pending next.requested next.progress := by
  rw [Refinement.run]
  split
  · next stopped => cases h.symm.trans stopped
  · next again => cases h.symm.trans again; rfl

theorem Balks.run_of_step {e : E} {rest : List E} {requested : Bool}
    (h : Balks P policy all start (Refinement.step limits policy e rest requested p)) :
    Balks P policy all start (Refinement.run limits policy (e :: rest) requested p) := by
  obtain ⟨stop, q, offered, stopped, why⟩ := h
  refine ⟨stop, q, offered, ?_, why⟩
  rw [Refinement.run]
  split
  · next stopped' => exact congrArg _ (Except.error.inj (stopped'.symm.trans stopped))
  · next again => cases stopped.symm.trans again

variable [LawfulForest E]

theorem exists_wantsSplit {e : E} {requested : Bool}
    (h : ¬ Balks P policy all start (Refinement.wantsSplit limits policy requested p e))
    (hP : Hereditary P) (reach : Reaches policy start p) (he : P e) :
    ∃ wanted p', Refinement.wantsSplit limits policy requested p e = .ok (wanted, p') ∧
      Reaches policy start p' ∧ p'.leaves = p.leaves ∧ (requested = true → wanted = true) := by
  obtain ⟨l, _, hl⟩ := level_of_valid (hP.valid he)
  have allowed : limits.allowsRefine e = .ok (decide (l < limits.effectiveMaxLevel E)) := by
    rw [Limits.allowsRefine, hl]
    rfl
  cases requested with
  | true => exact ⟨true, p, rfl, reach, rfl, fun _ => rfl⟩
  | false =>
      unfold Refinement.wantsSplit at h ⊢
      cases again : limits.recursive with
      | false => exact ⟨false, p, rfl, reach, rfl, id⟩
      | true =>
          simp only [again, Bool.false_eq_true, if_false, Bool.not_true, during_of_ok allowed,
            ok_bind] at h ⊢
          split
          · next may =>
              rw [if_pos may] at h
              obtain ⟨a, p', asked, reach', same, _⟩ :=
                exists_ask (fun b => h (b.bind _)) reach (List.cons_ne_nil e []) (by simpa using he)
              rw [asked]
              exact ⟨_, p', rfl, reach', same, False.elim⟩
          · exact ⟨false, p, rfl, reach, rfl, False.elim⟩

theorem exists_refine? {e : E} {l : Nat} (he : Valid e) (hl : level e = .ok l) :
    (l < finest E ∧ ∃ t, Transition.refine? e = .ok (some t) ∧ children e = .ok t.added) ∨
      (finest E ≤ l ∧ Transition.refine? e = .ok none) := by
  unfold Transition.refine?
  rw [hl, ok_bind]
  split
  · next fine => exact .inr ⟨fine, rfl⟩
  · next coarse =>
      have coarser : l < finest E := Nat.lt_of_not_le coarse
      obtain ⟨cs, hcs⟩ := exists_children he hl coarser
      rw [hcs]
      exact .inl ⟨coarser, _, rfl, rfl⟩

/-- One step emits the first pending element or puts its children in its place. -/
theorem exists_step {e : E} {l : Nat} {rest : List E} {requested : Bool}
    (h : ¬ Balks P policy all start (Refinement.step limits policy e rest requested p))
    (hP : Hereditary P) (reach : Reaches policy start p) (he : P e) (hl : level e = .ok l) :
    ∃ next, Refinement.step limits policy e rest requested p = .ok next ∧
      next.requested = false ∧ Reaches policy start next.progress ∧
      ((∃ cs, children e = .ok cs ∧ next.pending = cs ++ rest ∧
          next.progress.leaves = p.leaves) ∨
        ((requested = true → finest E ≤ l) ∧ next.pending = rest ∧
          next.progress.leaves.toList = p.leaves.toList ++ [e])) := by
  obtain ⟨wanted, p', hw, reach', same, forced⟩ :=
    exists_wantsSplit (fun b => h (b.bind _)) hP reach he
  rw [Refinement.step, hw, ok_bind]
  cases wanted with
  | false =>
      refine ⟨⟨rest, false, p'.emit e⟩, rfl, rfl, reach', .inr ⟨?_, rfl, ?_⟩⟩
      · exact fun asked => absurd (forced asked) Bool.false_ne_true
      · rw [Progress.leaves_emit, same]
  | true =>
      rcases exists_refine? (hP.valid he) hl with ⟨_, t, ht, hcs⟩ | ⟨fine, none⟩
      · refine ⟨⟨t.added ++ rest, false, p'.split t⟩, ?_, rfl, reach',
          .inl ⟨t.added, hcs, rfl, same⟩⟩
        simp only [Refinement.split?, during_of_ok ht, ok_bind, pure_eq_ok]
      · refine ⟨⟨rest, false, p'.emit e⟩, ?_, rfl, reach', .inr ⟨fun _ => fine, rfl, ?_⟩⟩
        · simp only [Refinement.split?, during_of_ok none, ok_bind, pure_eq_ok]
        · rw [Progress.leaves_emit, same]

theorem exists_run {pending : List E}
    (h : ¬ Balks P policy all start (Refinement.run limits policy pending false p))
    (hP : Hereditary P) (reach : Reaches policy start p) (hpending : ∀ e ∈ pending, P e) :
    ∃ p' run, Refinement.run limits policy pending false p = .ok p' ∧ Reaches policy start p' ∧
      Cuts pending run ∧ p'.leaves.toList = p.leaves.toList ++ run := by
  -- A step may lengthen the stack, but what it takes off weighs more than what it puts on.
  induction hw : Refinement.stackWeight pending using Nat.strong_induction_on
    generalizing pending p with
  | _ w ih =>
    cases pending with
    | nil =>
        refine ⟨p, [], ?_, reach, .nil, (List.append_nil _).symm⟩
        rw [Refinement.run, pure_eq_ok]
    | cons e rest =>
        have he := hpending e List.mem_cons_self
        obtain ⟨l, _, hl⟩ := level_of_valid (hP.valid he)
        obtain ⟨next, hs, again, reach', hnext⟩ :=
          exists_step (fun b => h b.run_of_step) hP reach he hl
        have lighter := Refinement.stackWeight_step_lt hs
        rw [hw] at lighter
        rw [run_of_step hs, again] at h ⊢
        rcases hnext with ⟨cs, hcs, hpend, same⟩ | ⟨_, hpend, same⟩
        · have below : ∀ c ∈ cs ++ rest, P c := by
            intro c hc
            rcases List.mem_append.mp hc with hc | hc
            · exact hP.mem_children he hcs hc
            · exact hpending c (List.mem_cons_of_mem _ hc)
          obtain ⟨p', run, hrun, reach'', cuts, leaves⟩ :=
            ih _ lighter h reach' (hpend ▸ below) rfl
          exact ⟨p', run, hrun, reach'', .split hcs (hpend ▸ cuts), by rw [leaves, same]⟩
        · have after : ∀ c ∈ rest, P c := fun c hc => hpending c (List.mem_cons_of_mem _ hc)
          obtain ⟨p', run, hrun, reach'', cuts, leaves⟩ :=
            ih _ lighter h reach' (hpend ▸ after) rfl
          refine ⟨p', e :: run, hrun, reach'', .emit (hpend ▸ cuts), ?_⟩
          rw [leaves, same, List.append_assoc, List.singleton_append]

theorem exists_refine {e : E} {l : Nat}
    (h : ¬ Balks P policy all start (refine limits policy e p)) (hP : Hereditary P)
    (reach : Reaches policy start p) (he : P e) (hl : level e = .ok l)
    (coarser : l < finest E) :
    ∃ p' cs run, refine limits policy e p = .ok p' ∧ Reaches policy start p' ∧
      children e = .ok cs ∧ Cuts cs run ∧ p'.leaves.toList = p.leaves.toList ++ run := by
  rw [refine] at h ⊢
  obtain ⟨next, hs, again, reach', hnext⟩ :=
    exists_step (fun b => h b.run_of_step) hP reach he hl
  rw [run_of_step hs, again] at h ⊢
  rcases hnext with ⟨cs, hcs, hpend, same⟩ | ⟨fine, _⟩
  · rw [List.append_nil] at hpend
    obtain ⟨p', run, hrun, reach'', cuts, leaves⟩ :=
      exists_run h hP reach' (fun c hc => hP.mem_children he hcs (hpend ▸ hc))
    exact ⟨p', cs, run, hrun, reach'', hcs, hpend ▸ cuts, by rw [leaves, same]⟩
  · have := fine rfl
    omega

/-! ## Sweeping -/

theorem exists_decideFirst {e : E} {a : Action}
    (h : ¬ Balks P policy all start (decideFirst limits policy a e p)) (hP : Hereditary P)
    (reach : Reaches policy start p) (he : P e) (ha : a ≠ .coarsen) :
    ∃ p' x, decideFirst limits policy a e p = .ok p' ∧ Reaches policy start p' ∧
      Change x ∧ x.outgoing = [e] ∧ p'.leaves.toList = p.leaves.toList ++ x.incoming := by
  obtain ⟨l, _, hl⟩ := level_of_valid (hP.valid he)
  have kept : ∃ x, Change x ∧ x.outgoing = [e] ∧
      (p.keep [e]).leaves.toList = p.leaves.toList ++ x.incoming :=
    ⟨⟨[e], [e]⟩, .carried e, rfl, Progress.leaves_keep p [e]⟩
  obtain ⟨x, hx, out, leaves⟩ := kept
  cases a with
  | coarsen => exact absurd rfl ha
  | keep => exact ⟨_, x, rfl, reach, hx, out, leaves⟩
  | refine =>
      have allowed : limits.allowsRefine e = .ok (decide (l < limits.effectiveMaxLevel E)) := by
        rw [Limits.allowsRefine, hl]
        rfl
      rw [decideFirst, during_of_ok allowed, ok_bind] at h ⊢
      split
      · next permitted =>
          rw [if_pos permitted] at h
          rw [Bool.and_eq_true, decide_eq_true_iff] at permitted
          have coarser : l < finest E := permitted.1.trans_le (Nat.min_le_right _ _)
          obtain ⟨p', cs, run, hrun, reach', hcs, cuts, added⟩ :=
            exists_refine h hP reach he hl coarser
          exact ⟨p', ⟨[e], run⟩, hrun, reach', .split hcs cuts, rfl, added⟩
      · exact ⟨_, x, rfl, reach, hx, out, leaves⟩

end

section

variable {P : E → Prop} {policy : Policy Client E} {all : List E} {limits : Limits}
  {start p : Progress Client E}

/-- A run that turns the leaves into new ones by a series of changes. -/
def Sweeps (policy : Policy Client E) (start : Progress Client E) (leaves : List E)
    (p : Progress Client E) (run : Attempt Client E (Progress Client E)) : Prop :=
  ∃ p' changes, run = .ok p' ∧ Reaches policy start p' ∧ (∀ x ∈ changes, Change x) ∧
    outgoing changes = leaves ∧ p'.leaves.toList = p.leaves.toList ++ incoming changes

theorem Sweeps.after {rest : List E} {p₁ : Progress Client E}
    {run : Attempt Client E (Progress Client E)} (h : Sweeps policy start rest p₁ run)
    {changes : List (Exchange E)} (hc : ∀ x ∈ changes, Change x)
    (hp : p₁.leaves.toList = p.leaves.toList ++ incoming changes) :
    Sweeps policy start (outgoing changes ++ rest) p run := by
  obtain ⟨p', more, hrun, reach, hmore, out, leaves⟩ := h
  refine ⟨p', changes ++ more, hrun, reach, ?_, ?_, ?_⟩
  · exact List.forall_mem_append.mpr ⟨hc, hmore⟩
  · rw [outgoing_append, out]
  · rw [leaves, hp, incoming_append, List.append_assoc]

theorem sweep_of_single {e : E} {rest : List E}
    (single : isFamily ((e :: rest).take (shape E).numChildren) = .ok false) :
    sweep limits policy (e :: rest) p =
      p.ask policy [e] >>= fun (a, p₁) =>
        decideFirst limits policy a e p₁ >>= sweep limits policy rest := by
  rw [sweep, during_of_ok single]
  simp only [ok_bind, Bool.false_eq_true, if_false, false_and]

theorem sweep_of_family {e : E} {rest : List E}
    (family : isFamily ((e :: rest).take (shape E).numChildren) = .ok true) :
    sweep limits policy (e :: rest) p =
      p.ask policy ((e :: rest).take (shape E).numChildren) >>= fun (a, p₁) =>
        if a = .coarsen then
          coarsen limits ((e :: rest).take (shape E).numChildren) e p₁ >>=
            sweep limits policy
              (rest.drop (((e :: rest).take (shape E).numChildren).length - 1))
        else decideFirst limits policy a e p₁ >>= sweep limits policy rest := by
  rw [sweep, during_of_ok family]
  simp only [ok_bind, if_true, true_and]

/-- The first round of a sweep changes some first leaves and leaves the others to the
next rounds. -/
def Round (limits : Limits) (policy : Policy Client E) (start : Progress Client E)
    (leaves : List E) (p : Progress Client E) : Prop :=
  ∃ p' changes rest, sweep limits policy leaves p = sweep limits policy rest p' ∧
    rest.length < leaves.length ∧ Reaches policy start p' ∧
    (∀ x ∈ changes, Change x) ∧ outgoing changes ++ rest = leaves ∧
    p'.leaves.toList = p.leaves.toList ++ incoming changes

/-- A round that decides on the first leaf. -/
theorem round_of_decided {e : E} {rest : List E} {p' : Progress Client E} {x : Exchange E}
    (round : sweep limits policy (e :: rest) p = sweep limits policy rest p')
    (reach : Reaches policy start p') (hx : Change x) (out : x.outgoing = [e])
    (new : p'.leaves.toList = p.leaves.toList ++ x.incoming) :
    Round limits policy start (e :: rest) p := by
  refine ⟨p', [x], rest, round, Nat.lt_succ_self _, reach, ?_, ?_, ?_⟩
  · intro y hy
    rwa [List.mem_singleton.mp hy]
  · rw [outgoing_cons, outgoing_nil, List.append_nil, out, List.singleton_append]
  · rw [new, incoming_cons, incoming_nil, List.append_nil]

end

section

variable [LawfulNavigation E] {P : E → Prop} {policy : Policy Client E} {all : List E}
  {limits : Limits} {start p : Progress Client E}

theorem coarsen?_eq {q first : E} {rest : List E} (hq : Valid q)
    (hf : children q = .ok (first :: rest)) :
    Transition.coarsen? (first :: rest) = .ok (some ⟨.coarsen, q, [q], first :: rest⟩) := by
  have family : isFamily (first :: rest) = .ok true :=
    (isFamily_of_valid fun e he => valid_of_mem_children hq hf he).eq_true ⟨q, hq, hf⟩
  obtain ⟨i, _, down⟩ := (mem_children_iff hf).mp List.mem_cons_self
  rw [Transition.coarsen?, family, ok_bind, if_pos rfl, (of_child hq down).2.1, ok_bind, pure_eq_ok]

theorem exists_coarsen (limits : Limits) (p : Progress Client E) {q first : E}
    {rest : List E} (hq : Valid q) (hf : children q = .ok (first :: rest)) :
    ∃ p' changes, coarsen limits (first :: rest) first p = .ok p' ∧ p'.client = p.client ∧
      p'.offers = p.offers ∧ (∀ x ∈ changes, Change x) ∧ outgoing changes = first :: rest ∧
      p'.leaves.toList = p.leaves.toList ++ incoming changes := by
  obtain ⟨l, _, hl⟩ := level_of_valid (valid_of_mem_children hq hf List.mem_cons_self)
  have allowed : limits.allowsCoarsen first = .ok (decide (limits.minLevel < l)) := by
    rw [Limits.allowsCoarsen, hl]
    rfl
  rw [coarsen, during_of_ok allowed, ok_bind]
  split
  · refine ⟨p.merge ⟨.coarsen, q, [q], first :: rest⟩, [⟨first :: rest, [q]⟩], ?_, rfl, rfl,
      ?_, ?_, ?_⟩
    · simp only [during_of_ok (coarsen?_eq hq hf), ok_bind, pure_eq_ok]
    · intro x hx
      rw [List.mem_singleton.mp hx]
      exact .merged hq hf
    · rw [outgoing_cons, outgoing_nil, List.append_nil]
    · rw [Progress.leaves_merge, incoming_cons, incoming_nil, List.append_nil]
  · refine ⟨p.keep (first :: rest), (first :: rest).map fun e => ⟨[e], [e]⟩, rfl, rfl, rfl,
      ?_, ?_, ?_⟩
    · intro x hx
      obtain ⟨e, _, rfl⟩ := List.mem_map.mp hx
      exact .carried e
    · exact outgoing_map_carried _
    · rw [Progress.leaves_keep, incoming_map_carried]

/-- What is offered next: a family at the head of the leaves, or the first leaf. -/
theorem isFamily_take {leaves : List E} (h : ∀ e ∈ leaves, Valid e) :
    (isFamily (leaves.take (shape E).numChildren) = .ok false) ∨
      isFamily (leaves.take (shape E).numChildren) = .ok true ∧
        ∃ q, Valid q ∧ children q = .ok (leaves.take (shape E).numChildren) := by
  obtain ⟨b, hb, hiff⟩ := isFamily_of_valid fun e he => h e (List.mem_of_mem_take he)
  cases b with
  | false => exact .inl hb
  | true => exact .inr ⟨hb, hiff.mp rfl⟩

theorem round_of_single {e : E} {rest : List E}
    (h : ¬ Balks P policy all start (sweep limits policy (e :: rest) p)) (hP : Hereditary P)
    (reach : Reaches policy start p) (he : P e) (hall : e ∈ all)
    (single : isFamily ((e :: rest).take (shape E).numChildren) = .ok false) :
    Round limits policy start (e :: rest) p := by
  have round : sweep limits policy (e :: rest) p = _ := sweep_of_single single
  rw [round] at h
  have alone : ∀ d ∈ [e], P d := by simpa using he
  obtain ⟨a, p₁, asked, reach₁, same, logged, answer⟩ :=
    exists_ask (fun b => h (b.bind _)) reach (List.cons_ne_nil e []) alone
  simp only [asked, ok_bind] at h round
  have ha : a ≠ .coarsen := by
    rintro rfl
    refine h ⟨⟨.contract, p₁⟩, p, [e], rfl, logged, reach, ⟨List.cons_ne_nil e [], alone⟩, ?_⟩
    intro a c answer'
    cases answer.symm.trans answer'
    exact ⟨rfl, e, hall, rfl⟩
  obtain ⟨p₂, x, decided, reach₂, change, out, leaves⟩ :=
    exists_decideFirst (fun b => h (b.bind _)) hP reach₁ he ha
  rw [decided, ok_bind] at round
  exact round_of_decided round reach₂ change out (same ▸ leaves)

omit [LawfulNavigation E] in
/-- A family at the head of the leaves, and the leaves after it. -/
theorem exists_siblings {q e : E} {rest : List E}
    (hf : children q = .ok ((e :: rest).take (shape E).numChildren)) :
    ∃ siblings, (e :: rest).take (shape E).numChildren = e :: siblings ∧
      siblings ++ rest.drop (((e :: rest).take (shape E).numChildren).length - 1) = rest := by
  obtain ⟨n, hn⟩ : ∃ n, (shape E).numChildren = n + 1 :=
    Nat.exists_eq_succ_of_ne_zero (branching_pos E).ne'
  refine ⟨rest.take n, by rw [hn, List.take_succ_cons], ?_⟩
  rw [length_children hf, hn, Nat.add_sub_cancel, List.take_append_drop]

theorem round_of_merge {q e : E} {rest : List E} (hq : Valid q)
    (hf : children q = .ok ((e :: rest).take (shape E).numChildren)) {p₁ : Progress Client E}
    (round : sweep limits policy (e :: rest) p =
      coarsen limits ((e :: rest).take (shape E).numChildren) e p₁ >>=
        sweep limits policy (rest.drop (((e :: rest).take (shape E).numChildren).length - 1)))
    (reach : Reaches policy start p₁) (same : p₁.leaves = p.leaves) :
    Round limits policy start (e :: rest) p := by
  obtain ⟨siblings, head, whole⟩ := exists_siblings hf
  obtain ⟨p₂, changes, merged, client', offers, hc, out, leaves⟩ :=
    exists_coarsen limits p₁ hq (head ▸ hf)
  rw [head, merged, ok_bind] at round
  refine ⟨p₂, changes, _, round, ?_, ?_, hc, ?_, same ▸ leaves⟩
  · rw [List.length_drop, List.length_cons, List.length_cons]
    omega
  · unfold Reaches
    rw [offers, client']
    exact reach
  · rw [out, List.cons_append, ← head, whole]

theorem round_of_family {q e : E} {rest : List E}
    (h : ¬ Balks P policy all start (sweep limits policy (e :: rest) p)) (hP : Hereditary P)
    (reach : Reaches policy start p) (hl : ∀ d ∈ e :: rest, P d) (hq : Valid q)
    (hf : children q = .ok ((e :: rest).take (shape E).numChildren))
    (family : isFamily ((e :: rest).take (shape E).numChildren) = .ok true) :
    Round limits policy start (e :: rest) p := by
  have round : sweep limits policy (e :: rest) p = _ := sweep_of_family family
  rw [round] at h
  have offered : ∀ d ∈ (e :: rest).take (shape E).numChildren, P d :=
    fun d hd => hl d (List.mem_of_mem_take hd)
  have nonempty : (e :: rest).take (shape E).numChildren ≠ [] := by
    intro none
    have := length_children hf
    rw [none, List.length_nil] at this
    exact (branching_pos E).ne this
  obtain ⟨a, p₁, asked, reach₁, same, _⟩ :=
    exists_ask (fun b => h (b.bind _)) reach nonempty offered
  simp only [asked, ok_bind] at h round
  by_cases ha : a = .coarsen
  · rw [if_pos ha] at round
    exact round_of_merge hq hf round reach₁ same
  · rw [if_neg ha] at h round
    obtain ⟨p₂, x, decided, reach₂, change, out, leaves⟩ :=
      exists_decideFirst (fun b => h (b.bind _)) hP reach₁ (hl e List.mem_cons_self) ha
    rw [decided, ok_bind] at round
    exact round_of_decided round reach₂ change out (same ▸ leaves)

theorem exists_round {e : E} {rest : List E}
    (h : ¬ Balks P policy all start (sweep limits policy (e :: rest) p)) (hP : Hereditary P)
    (reach : Reaches policy start p) (hall : e ∈ all) (hl : ∀ d ∈ e :: rest, P d) :
    Round limits policy start (e :: rest) p := by
  rcases isFamily_take fun d hd => hP.valid (hl d hd) with single | ⟨family, q, hq, hf⟩
  · exact round_of_single h hP reach (hl e List.mem_cons_self) hall single
  · exact round_of_family h hP reach hl hq hf family

theorem sweeps {leaves : List E}
    (h : ¬ Balks P policy all start (sweep limits policy leaves p)) (hP : Hereditary P)
    (reach : Reaches policy start p) (hall : ∀ e ∈ leaves, e ∈ all) (hl : ∀ e ∈ leaves, P e) :
    Sweeps policy start leaves p (sweep limits policy leaves p) := by
  -- A round takes one leaf or a family, so the induction is not on the list itself.
  induction hn : leaves.length using Nat.strong_induction_on generalizing leaves p with
  | _ n ih =>
    cases leaves with
    | nil =>
        rw [sweep]
        exact ⟨p, [], rfl, reach, fun x hx => absurd hx List.not_mem_nil, rfl,
          (List.append_nil _).symm⟩
    | cons e rest =>
        obtain ⟨p', changes, later, round, shorter, reach', hc, whole, new⟩ :=
          exists_round h hP reach (hall e List.mem_cons_self) hl
        rw [round] at h ⊢
        rw [← whole]
        rw [← whole] at hall hl
        have swept := ih later.length (hn ▸ shorter) h reach'
          (fun d hd => hall d (List.mem_append_right _ hd))
          (fun d hd => hl d (List.mem_append_right _ hd)) rfl
        exact swept.after hc new

end

/-! ## Policies that answer any offer -/

section

variable {P : E → Prop} {policy : Policy Client E}

/-- A willing policy answers whatever is offered to it while one leaf is refined. -/
theorem Willing.obliges [LawfulForest E] (h : Willing P policy) (hP : Hereditary P) {e : E}
    {l : Nat} (he : P e) (hl : level e = .ok l) (coarser : l < finest E)
    (limits : Limits) (p : Progress Client E) :
    Obliges policy [] p.client
      ((offersIn (·.offers.toList) (refine limits policy e p)).drop p.offers.size) := by
  have goes : ¬ Balks P policy [] p (refine limits policy e p) := h.not_balks
  obtain ⟨p', _, _, ran, ⟨offers, log, heard⟩, _⟩ :=
    exists_refine goes hP (.refl policy p) he hl coarser
  rw [ran, offersIn, log, ← Array.length_toList, List.drop_left]
  exact ⟨⟨p'.client, heard⟩, fun _ _ none => absurd none List.not_mem_nil⟩

theorem Willing.cooperates [LawfulNavigation E] [DecidableEq E] (h : Willing P policy)
    (hP : Hereditary P) (limits : Limits) (client : Client) {leaves : Leaves E}
    (hl : ∀ e ∈ leaves.toList, P e) : Cooperates limits policy client leaves := by
  have goes : ¬ Balks P policy leaves.toList (.start client)
      (sweep limits policy leaves.toList (.start client)) := h.not_balks
  obtain ⟨p, _, swept, ⟨offers, log, heard⟩, _⟩ :=
    sweeps goes hP (.refl policy (.start client)) (fun _ he => he) hl
  have all : offersIn (·.offers.toList) (Except.ok p : Attempt Client E _) = offers := log
  rw [Cooperates, offersIn_adapt, swept, all]
  refine ⟨⟨p.client, heard⟩, ?_⟩
  intro _ _ e c c' _ _ he answer
  obtain ⟨a, c'', answer', several⟩ := h c [e] (List.cons_ne_nil e []) (by simpa using hl e he)
  cases answer.symm.trans answer'
  exact absurd (several rfl) (Nat.lt_irrefl 1)

end

end MeshCurve.Adapt
