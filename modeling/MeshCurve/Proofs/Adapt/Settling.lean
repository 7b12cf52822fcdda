import MeshCurve.Proofs.Adapt.Script

/-!
# Refining until nothing is left to refine

A policy that refines wherever a predicate holds comes to rest when it reaches the limit on
the level.  Sweeps that look at every leaf once get there one level at a time, and a
recursive pass gets there at once, depth first.  Both leave the same leaves in the same
order: where an element ends up does not depend on when it is looked at.
-/

namespace MeshCurve.Adapt

open Element Leaves

variable {Client E : Type}

/-! ## Refining where a predicate holds -/

/-- Refines the first of the offered leaves if `P` holds of it, and keeps it otherwise. -/
def refineWhere (P : E → Bool) : Policy Unit E := fun _ offered =>
  match offered with
  | [] => .error .index
  | e :: _ => .ok (if P e then .refine else .keep, ())

theorem refineWhere_willing (Q : E → Prop) (P : E → Bool) : Willing Q (refineWhere P) := by
  intro c offered some' _
  obtain ⟨e, rest, rfl⟩ := List.exists_cons_of_ne_nil some'
  refine ⟨_, (), rfl, ?_⟩
  split <;> exact nofun

theorem refineWhere_never_coarsens (P : E → Bool) : Never (refineWhere P) .coarsen := by
  intro c offered c' h
  cases offered with
  | nil => cases h
  | cons e rest =>
      rw [refineWhere] at h
      split at h <;> cases h

variable [Element E]

/-- The leaves that are there after `passes` passes, and the refinements of all of them. -/
def repeatPasses [DecidableEq E] (limits : Limits) (policy : Policy Client E) (client : Client) :
    (passes : Nat) → Leaves E → Attempt Client E (Leaves E × Nat)
  | 0, leaves => return (leaves, 0)
  | passes + 1, leaves => do
    let out ← adapt limits policy client leaves
    let (last, refinements) ← repeatPasses limits policy client passes out.leaves
    return (last, out.stats.refinements + refinements)

/-! ## Two ways to refine -/

section

variable {S : E → Prop} {xs ys zs out : List E} {m n : Nat}

/-- Every element with property `S` makes way for its children; `n` is their number. -/
inductive RefinedOnce (S : E → Prop) : List E → List E → (n : Nat) → Prop
  | nil : RefinedOnce S [] [] 0
  | rest {e : E} {xs ys : List E} {n : Nat} : ¬ S e → RefinedOnce S xs ys n →
      RefinedOnce S (e :: xs) (e :: ys) n
  | split {e : E} {xs ys cs : List E} {n : Nat} : S e → children e = .ok cs →
      RefinedOnce S xs ys n → RefinedOnce S (e :: xs) (cs ++ ys) (n + 1)

/-- The children are looked at before what comes after them. -/
inductive RefinedFully (S : E → Prop) : List E → List E → (n : Nat) → Prop
  | nil : RefinedFully S [] [] 0
  | rest {e : E} {xs ys : List E} {n : Nat} : ¬ S e → RefinedFully S xs ys n →
      RefinedFully S (e :: xs) (e :: ys) n
  | split {e : E} {xs ys cs : List E} {n : Nat} : S e → children e = .ok cs →
      RefinedFully S (cs ++ xs) ys n → RefinedFully S (e :: xs) ys (n + 1)

theorem RefinedFully.unique (h : RefinedFully S xs ys m) (h' : RefinedFully S xs zs n) :
    ys = zs ∧ m = n := by
  induction h generalizing zs n with
  | nil =>
      cases h'
      exact ⟨rfl, rfl⟩
  | rest stays _ ih =>
      cases h' with
      | rest _ h' =>
          obtain ⟨rfl, rfl⟩ := ih h'
          exact ⟨rfl, rfl⟩
      | split splits => exact absurd splits stays
  | split splits hcs _ ih =>
      cases h' with
      | rest stays => exact absurd splits stays
      | split _ hcs' h' =>
          cases hcs.symm.trans hcs'
          obtain ⟨rfl, rfl⟩ := ih h'
          exact ⟨rfl, rfl⟩

theorem RefinedFully.append {xs' ys' : List E} (h : RefinedFully S xs ys m)
    (h' : RefinedFully S xs' ys' n) : RefinedFully S (xs ++ xs') (ys ++ ys') (m + n) := by
  induction h with
  | nil => rwa [Nat.zero_add]
  | rest stays _ ih => exact .rest stays ih
  | split splits hcs _ ih =>
      rw [List.append_assoc] at ih
      rw [Nat.add_right_comm]
      exact .split splits hcs ih

theorem RefinedFully.of_append {xs' : List E} (h : RefinedFully S (xs ++ xs') out n) :
    ∃ ys ys' m m', out = ys ++ ys' ∧ n = m + m' ∧ RefinedFully S xs ys m ∧
      RefinedFully S xs' ys' m' := by
  generalize whole : xs ++ xs' = zs at h
  induction h generalizing xs with
  | nil =>
      obtain ⟨rfl, rfl⟩ := List.append_eq_nil_iff.mp whole
      exact ⟨[], [], 0, 0, rfl, rfl, .nil, .nil⟩
  | @rest e zs out n stays h ih =>
      cases xs with
      | nil =>
          rw [List.nil_append] at whole
          exact ⟨[], _, 0, _, rfl, (Nat.zero_add _).symm, .nil, whole ▸ .rest stays h⟩
      | cons x xs =>
          obtain ⟨rfl, tail⟩ := List.cons.inj whole
          obtain ⟨ys, ys', m, m', rfl, rfl, first, later⟩ := ih tail
          exact ⟨x :: ys, ys', m, m', rfl, rfl, .rest stays first, later⟩
  | @split e zs out cs n splits hcs h ih =>
      cases xs with
      | nil =>
          rw [List.nil_append] at whole
          exact ⟨[], _, 0, _, rfl, (Nat.zero_add _).symm, .nil, whole ▸ .split splits hcs h⟩
      | cons x xs =>
          obtain ⟨rfl, tail⟩ := List.cons.inj whole
          have behind : cs ++ xs ++ xs' = cs ++ zs := by
            rw [List.append_assoc]
            exact congrArg (cs ++ ·) tail
          obtain ⟨ys, ys', m, m', rfl, rfl, first, later⟩ := ih behind
          exact ⟨ys, ys', m + 1, m', rfl, Nat.add_right_comm m m' 1, .split splits hcs first, later⟩

/-- A sweep takes part of the way. -/
theorem RefinedOnce.fully (h : RefinedOnce S xs ys m) (h' : RefinedFully S ys zs n) :
    RefinedFully S xs zs (m + n) := by
  induction h generalizing zs n with
  | nil => rwa [Nat.zero_add]
  | rest _ _ ih =>
      cases h' with
      | rest stays h' => exact .rest stays (ih h')
      | split splits => contradiction
  | @split e xs ys cs m splits hcs _ ih =>
      obtain ⟨as, bs, k, k', rfl, rfl, first, later⟩ := h'.of_append
      have whole := first.append (ih later)
      rw [← Nat.add_assoc, Nat.add_comm k m, Nat.add_assoc] at whole
      rw [Nat.add_right_comm]
      exact .split splits hcs whole

/-! ## Rest -/

/-- No element is left to refine. -/
def Settled (S : E → Prop) (xs : List E) : Prop := ∀ e ∈ xs, ¬ S e

theorem RefinedFully.settled (h : RefinedFully S xs ys n) : Settled S ys := by
  induction h with
  | nil => exact fun _ he => absurd he List.not_mem_nil
  | rest stays _ ih => exact List.forall_mem_cons.mpr ⟨stays, ih⟩
  | split _ _ _ ih => exact ih

theorem Settled.refinedFully (h : Settled S xs) : RefinedFully S xs xs 0 := by
  induction xs with
  | nil => exact .nil
  | cons e xs ih =>
      obtain ⟨stays, later⟩ := List.forall_mem_cons.mp h
      exact .rest stays (ih later)

theorem RefinedOnce.eq_of_settled (h : RefinedOnce S xs ys n) (rest : Settled S xs) :
    ys = xs ∧ n = 0 := by
  induction h with
  | nil => exact ⟨rfl, rfl⟩
  | rest _ _ ih =>
      obtain ⟨rfl, rfl⟩ := ih (List.forall_mem_cons.mp rest).2
      exact ⟨rfl, rfl⟩
  | split splits => exact absurd splits (List.forall_mem_cons.mp rest).1

/-- What is left to refine is at least of level `l`. -/
def Deep (S : E → Prop) (l : Nat) (xs : List E) : Prop :=
  ∀ e ∈ xs, S e → ∃ m, level e = .ok m ∧ l ≤ m

/-- A sweep leaves nothing of the coarsest level to refine. -/
theorem RefinedOnce.deep {l : Nat} (h : RefinedOnce S xs ys n) (deep : Deep S l xs) :
    Deep S (l + 1) ys := by
  induction h with
  | nil => exact fun _ he => absurd he List.not_mem_nil
  | rest stays _ ih =>
      obtain ⟨_, later⟩ := List.forall_mem_cons.mp deep
      exact List.forall_mem_cons.mpr ⟨fun splits => absurd splits stays, ih later⟩
  | split splits hcs _ ih =>
      obtain ⟨first, later⟩ := List.forall_mem_cons.mp deep
      refine List.forall_mem_append.mpr ⟨?_, ih later⟩
      intro c hc _
      obtain ⟨m, hm, deep⟩ := first splits
      obtain ⟨m', hm', level⟩ := level_of_mem_children hcs hc
      cases hm.symm.trans hm'
      exact ⟨m + 1, level, Nat.succ_le_succ deep⟩

end

/-! ## Moves -/

/-- What the limits allow to refine, and the predicate asks for. -/
def Splits (limits : Limits) (P : E → Bool) (e : E) : Prop :=
  limits.allowsRefine e = .ok true ∧ P e = true

section

variable {limits : Limits} {P : E → Bool} {s : Stage Unit E} {p p₁ : Progress Unit E} {e : E}
  {rest offered : List E} {a : Action} {l : Nat}

theorem Splits.level_lt (h : Splits limits P e) (hl : level e = .ok l) :
    l < limits.effectiveMaxLevel E := by
  obtain ⟨m, hm, allowed⟩ := bind_eq_ok_iff.mp h.1
  cases hl.symm.trans hm
  exact of_decide_eq_true (Except.ok.inj allowed)

theorem Deep.settled {xs : List E} (deep : Deep (Splits limits P) l xs)
    (fine : limits.effectiveMaxLevel E ≤ l) : Settled (Splits limits P) xs := by
  intro e he splits
  obtain ⟨m, hm, hle⟩ := deep e he splits
  have := splits.level_lt hm
  omega

theorem mayRefine_of_unlimited {q : Progress Client E}
    (unlimited : limits.budget.maxRefinements = 0) :
    MayRefine limits q e ↔ limits.allowsRefine e = .ok true := by
  rw [MayRefine, Budget.canRefine, unlimited]
  simp

theorem Offered.exists_tail (h : Offered (e :: rest) offered) : ∃ tail, offered = e :: tail := by
  obtain ⟨n, hn⟩ : ∃ n, (shape E).numChildren = n + 1 :=
    Nat.exists_eq_succ_of_ne_zero (branching_pos E).ne'
  rcases h with ⟨_, rfl⟩ | ⟨_, rfl⟩
  · exact ⟨rest.take n, by rw [hn, List.take_succ_cons]⟩
  · exact ⟨[], rfl⟩

omit [Element E] in
theorem refine_iff_of_ask {tail : List E}
    (h : p.ask (refineWhere P) (e :: tail) = .ok (a, p₁)) : a = .refine ↔ P e = true := by
  have answer := (of_ask h).1
  cases answer
  cases P e <;> decide

theorem splits_of_split (offer : Offered (e :: rest) offered)
    (asked : p.ask (refineWhere P) offered = .ok (.refine, p₁)) (may : MayRefine limits p₁ e) :
    Splits limits P e := by
  obtain ⟨tail, rfl⟩ := offer.exists_tail
  exact ⟨may.1, (refine_iff_of_ask asked).mp rfl⟩

theorem not_splits_of_keep (unlimited : limits.budget.maxRefinements = 0)
    (offer : Offered (e :: rest) offered) (asked : p.ask (refineWhere P) offered = .ok (a, p₁))
    (refused : a = .refine → ¬ MayRefine limits p₁ e) : ¬ Splits limits P e := by
  obtain ⟨tail, rfl⟩ := offer.exists_tail
  rintro ⟨allowed, wanted⟩
  exact refused ((refine_iff_of_ask asked).mpr wanted)
    ((mayRefine_of_unlimited unlimited).mpr allowed)

/-- What is left of a pass between two moves, which looks at children only if it is to do so
`again`. -/
inductive Refines (S : E → Prop) (again : Prop) :
    (pending remaining out : List E) → (n : Nat) → Prop
  | nil : Refines S again [] [] [] 0
  | rest {e : E} {remaining out : List E} {n : Nat} : ¬ S e → Refines S again [] remaining out n →
      Refines S again [] (e :: remaining) (e :: out) n
  | split {e : E} {cs remaining out : List E} {n : Nat} : S e → children e = .ok cs →
      Refines S again cs remaining out n → Refines S again [] (e :: remaining) out (n + 1)
  | place {e : E} {pending remaining out : List E} {n : Nat} : (again → ¬ S e) →
      Refines S again pending remaining out n →
      Refines S again (e :: pending) remaining (e :: out) n
  | descend {e : E} {cs pending remaining out : List E} {n : Nat} : again → S e →
      children e = .ok cs → Refines S again (cs ++ pending) remaining out n →
      Refines S again (e :: pending) remaining out (n + 1)

theorem Refines.once {S : E → Prop} {again : Prop} {pending remaining out : List E} {n : Nat}
    (h : Refines S again pending remaining out n) (once : ¬ again) :
    ∃ run, out = pending ++ run ∧ RefinedOnce S remaining run n := by
  induction h with
  | nil => exact ⟨[], rfl, .nil⟩
  | rest stays _ ih =>
      obtain ⟨run, rfl, refined⟩ := ih
      exact ⟨_, rfl, .rest stays refined⟩
  | split splits hcs _ ih =>
      obtain ⟨run, rfl, refined⟩ := ih
      exact ⟨_, rfl, .split splits hcs refined⟩
  | place _ _ ih =>
      obtain ⟨run, rfl, refined⟩ := ih
      exact ⟨run, rfl, refined⟩
  | descend again => exact absurd again once

theorem Refines.fully {S : E → Prop} {again : Prop} {pending remaining out : List E} {n : Nat}
    (h : Refines S again pending remaining out n) (all : again) :
    RefinedFully S (pending ++ remaining) out n := by
  induction h with
  | nil => exact .nil
  | rest stays _ ih => exact .rest stays ih
  | split splits hcs _ ih => exact .split splits hcs ih
  | place stays _ ih => exact .rest (stays all) ih
  | descend _ splits hcs _ ih =>
      rw [List.append_assoc] at ih
      exact .split splits hcs ih

theorem refines_of_moves (unlimited : limits.budget.maxRefinements = 0)
    (h : Moves limits (refineWhere P) s ⟨[], [], p⟩) :
    ∃ out n, Refines (Splits limits P) (limits.recursive = true) s.pending s.remaining out n ∧
      p.leaves.toList = s.progress.leaves.toList ++ out ∧
      p.stats.refinements = s.progress.stats.refinements + n := by
  -- from the last move back to the first, so that what is left is already known
  induction h using Relation.ReflTransGen.head_induction_on with
  | refl => exact ⟨[], 0, .nil, by simp, rfl⟩
  | head move _ ih =>
      obtain ⟨out, n, refines, leaves, count⟩ := ih
      cases move with
      | keep offer asked _ refused =>
          obtain ⟨_, same, _, stats⟩ := of_ask asked
          refine ⟨_, n, .rest (not_splits_of_keep unlimited offer asked refused) refines, ?_, ?_⟩
          · simpa [same] using leaves
          · simpa [stats] using count
      | split offer asked may hcs =>
          obtain ⟨_, same, _, stats⟩ := of_ask asked
          refine ⟨_, n + 1, .split (splits_of_split offer asked may) hcs refines, ?_, ?_⟩
          · simpa [same] using leaves
          · simpa [stats, Nat.add_assoc, Nat.add_comm 1] using count
      | refuse _ _ asked | merge _ _ asked =>
          exact absurd (of_ask asked).1 (refineWhere_never_coarsens P _ _ _)
      | @place e _ _ _ refused =>
          have stays : limits.recursive = true → ¬ Splits limits P e := fun again splits =>
            refused ⟨again, (mayRefine_of_unlimited unlimited).mpr splits.1⟩
          exact ⟨_, n, .place stays refines, by simpa using leaves, count⟩
      | @settle e _ _ _ _ _ _ _ asked kept =>
          obtain ⟨_, same, _, stats⟩ := of_ask asked
          have stays : ¬ Splits limits P e := fun splits =>
            kept ((refine_iff_of_ask asked).mpr splits.2)
          refine ⟨_, n, .place (fun _ => stays) refines, ?_, ?_⟩
          · simpa [same] using leaves
          · simpa [stats] using count
      | @descend e _ _ _ _ _ again may asked hcs =>
          obtain ⟨_, same, _, stats⟩ := of_ask asked
          have splits : Splits limits P e := ⟨may.1, (refine_iff_of_ask asked).mp rfl⟩
          refine ⟨_, n + 1, .descend again splits hcs refines, ?_, ?_⟩
          · simpa [same] using leaves
          · simpa [stats, Nat.add_assoc, Nat.add_comm 1] using count

end

/-! ## Passes -/

section

variable [DecidableEq E] [LawfulNavigation E] (limits : Limits) (P : E → Bool) {leaves : Leaves E}

/-- A pass of such a policy, as far as its limits let it refine. -/
theorem exists_refining_pass (unlimited : limits.budget.maxRefinements = 0)
    (spread : Spread leaves.toList) :
    ∃ out, adapt limits (refineWhere P) () leaves = .ok out ∧ Spread out.leaves.toList ∧
      out.stats.coarsenings = 0 ∧
      (limits.recursive = false →
        RefinedOnce (Splits limits P) leaves.toList out.leaves.toList out.stats.refinements) ∧
      (limits.recursive = true →
        RefinedFully (Splits limits P) leaves.toList out.leaves.toList out.stats.refinements) := by
  have cooperates :=
    (refineWhere_willing Valid P).cooperates hereditary_valid limits () spread.valid
  obtain ⟨out, ran, _⟩ := exists_adapt cooperates spread.valid spread.apart
  obtain ⟨p, moves, new, stats, _⟩ := exists_moves spread.valid ran
  obtain ⟨spread', _⟩ := exists_script_of_moves moves (by simpa [Stage.elements] using spread)
  obtain ⟨result, n, refines, leaves, count⟩ := refines_of_moves unlimited moves
  refine ⟨out, ran, ?_, coarsenings_of_adapt spread.valid ran (refineWhere_never_coarsens P),
    ?_, ?_⟩
  · rw [new]
    simpa [Stage.elements] using spread'
  · intro once
    obtain ⟨run, rfl, refined⟩ := refines.once (by simp [once])
    rw [new, stats, leaves, count]
    simpa [Progress.start, Stats.zero] using refined
  · intro again
    rw [new, stats, leaves, count]
    simpa [Progress.start, Stats.zero] using refines.fully again

theorem exists_repeatPasses (unlimited : limits.budget.maxRefinements = 0)
    (once : limits.recursive = false) (spread : Spread leaves.toList) {l : Nat}
    (deep : Deep (Splits limits P) l leaves.toList) (passes : Nat) :
    ∃ last n, repeatPasses limits (refineWhere P) () passes leaves = .ok (last, n) ∧
      Deep (Splits limits P) (l + passes) last.toList ∧
      ∀ {zs m}, RefinedFully (Splits limits P) last.toList zs m →
        RefinedFully (Splits limits P) leaves.toList zs (n + m) := by
  induction passes generalizing leaves l with
  | zero => exact ⟨leaves, 0, rfl, deep, fun h => by rwa [Nat.zero_add]⟩
  | succ passes ih =>
      obtain ⟨out, ran, spread', _, refined, _⟩ := exists_refining_pass limits P unlimited spread
      have refined := refined once
      obtain ⟨last, n, repeated, deep', onwards⟩ := ih spread' (refined.deep deep)
      refine ⟨last, out.stats.refinements + n, ?_, ?_, ?_⟩
      · rw [repeatPasses, ran, ok_bind, repeated]
        rfl
      · rwa [Nat.add_assoc, Nat.add_comm 1] at deep'
      · intro zs m rest
        rw [Nat.add_assoc]
        exact refined.fully (onwards rest)

/-- Where nothing is left to refine, no pass refines anything. -/
theorem exists_idle_pass (unlimited : limits.budget.maxRefinements = 0)
    (spread : Spread leaves.toList) (settled : Settled (Splits limits P) leaves.toList) :
    ∃ out, adapt limits (refineWhere P) () leaves = .ok out ∧ out.leaves = leaves ∧
      out.stats.isUnchanged = true := by
  obtain ⟨out, ran, _, coarsenings, once, fully⟩ :=
    exists_refining_pass limits P unlimited spread
  have same : out.leaves.toList = leaves.toList ∧ out.stats.refinements = 0 := by
    cases again : limits.recursive with
    | false => exact (once again).eq_of_settled settled
    | true => exact (fully again).unique settled.refinedFully
  obtain ⟨new, refinements⟩ := same
  refine ⟨out, ran, congrArg Leaves.mk new, ?_⟩
  rw [Stats.isUnchanged, Stats.transitions, coarsenings, refinements]
  rfl

end

section

variable [LawfulNavigation E] {leaves : Leaves E}

theorem exists_minLevel? (valid : ∀ e ∈ leaves.toList, Valid e) {e : E} {l : Nat}
    (he : e ∈ leaves.toList) (hl : level e = .ok l) :
    ∃ m ≤ l, leaves.minLevel? = .ok (some m) := by
  have each : ∀ d ∈ leaves.toList, ∃ k, level d = .ok k := fun d hd =>
    let ⟨k, _, hk⟩ := level_of_valid (valid d hd)
    ⟨k, hk⟩
  obtain ⟨ls, hls⟩ := exists_mapM_eq_ok each
  obtain ⟨i, hi⟩ := List.getElem?_of_mem he
  obtain ⟨l', at', hl'⟩ := getElem?_of_mapM_eq_ok hls hi
  cases hl.symm.trans hl'
  have member := List.mem_of_getElem? at'
  cases hmin : ls.min? with
  | none =>
      rw [List.min?_eq_none_iff.mp hmin] at member
      exact absurd member List.not_mem_nil
  | some m =>
      refine ⟨m, (List.min?_eq_some_iff.mp hmin).2 l member, ?_⟩
      rw [minLevel?, levels, hls, ok_bind, hmin, pure_eq_ok]

theorem deep_of_minLevel? {S : E → Prop} {top passes : Nat}
    (valid : ∀ e ∈ leaves.toList, Valid e)
    (enough : ∀ m, leaves.minLevel? = .ok (some m) → top - m ≤ passes) :
    Deep S (top - passes) leaves.toList := by
  intro e he _
  obtain ⟨l, _, hl⟩ := level_of_valid (valid e he)
  obtain ⟨m, hle, least⟩ := exists_minLevel? valid he hl
  have := enough m least
  exact ⟨l, hl, by omega⟩

end

/-- A recursive pass leaves what single sweeps do, as many of them as there are levels to
refine, and with as many refinements.  After that no pass of this policy changes anything. -/
theorem recursive_pass_eq_passes (s : Shape) (P : s.Carrier → Bool) {leaves : Leaves s.Carrier}
    (valid : ∀ e ∈ leaves.toList, Valid e) (separate : Separate leaves) (limits : Limits)
    (unlimited : limits.budget.maxRefinements = 0) :
    ∃ out, adapt { limits with recursive := true } (refineWhere P) () leaves = .ok out ∧
      (∀ passes, (∀ m, leaves.minLevel? = .ok (some m) →
          limits.effectiveMaxLevel s.Carrier - m ≤ passes) →
        repeatPasses { limits with recursive := false } (refineWhere P) () passes leaves =
          .ok (out.leaves, out.stats.refinements)) ∧
      ∀ recursive, ∃ again,
        adapt { limits with recursive } (refineWhere P) () out.leaves = .ok again ∧
          again.leaves = out.leaves ∧ again.stats.isUnchanged = true := by
  have spread : Spread leaves.toList := ⟨valid, (separate_iff valid).mp separate⟩
  obtain ⟨out, ran, spread', _, _, fully⟩ :=
    exists_refining_pass { limits with recursive := true } P unlimited spread
  have fully : RefinedFully (Splits limits P) leaves.toList out.leaves.toList
    out.stats.refinements := fully rfl
  refine ⟨out, ran, ?_, ?_⟩
  · intro passes enough
    have deep : Deep (Splits limits P) (limits.effectiveMaxLevel s.Carrier - passes)
      leaves.toList := deep_of_minLevel? valid enough
    obtain ⟨last, n, repeated, deep', onwards⟩ :=
      exists_repeatPasses { limits with recursive := false } P unlimited rfl spread deep passes
    have fine : limits.effectiveMaxLevel s.Carrier ≤
      limits.effectiveMaxLevel s.Carrier - passes + passes := by omega
    have settled : Settled (Splits limits P) last.toList := deep'.settled fine
    obtain ⟨new, count⟩ := fully.unique (onwards settled.refinedFully)
    have same : out.leaves = last := congrArg Leaves.mk new
    rw [repeated, same, count, Nat.add_zero]
  · intro recursive
    exact exists_idle_pass { limits with recursive } P unlimited spread' fully.settled

theorem separate_mixedQuads : Separate mixedQuads := by
  unfold Separate
  decide

/-- Three sweeps over leaves of the levels one and two refine along the lower edge down to
level four. -/
theorem recursive_pass_eq_passes_quad :
    (∀ e ∈ mixedQuads.toList, Valid e) ∧ Separate mixedQuads ∧
      mixedQuads.minLevel? = .ok (some 1) ∧
      ∃ out, adapt ⟨0, 4, true, .unlimited⟩ (refineWhere fun e : Quad => e.y = 0) () mixedQuads =
          .ok out ∧
        repeatPasses ⟨0, 4, false, .unlimited⟩ (refineWhere fun e => e.y = 0) () 3 mixedQuads =
          .ok (out.leaves, out.stats.refinements) ∧
        ∃ again, adapt ⟨0, 4, true, .unlimited⟩ (refineWhere fun e => e.y = 0) () out.leaves =
          .ok again ∧ again.leaves = out.leaves ∧ again.stats.isUnchanged = true := by
  have valid : ∀ e ∈ mixedQuads.toList, Valid e := by decide
  have least : mixedQuads.minLevel? = .ok (some 1) := by rfl
  obtain ⟨out, ran, passes, idle⟩ := recursive_pass_eq_passes .quad (fun e : Quad => e.y = 0)
    valid separate_mixedQuads ⟨0, 4, false, .unlimited⟩ rfl
  refine ⟨valid, separate_mixedQuads, least, out, ran, passes 3 ?_, idle true⟩
  intro m hm
  obtain rfl : 1 = m := Option.some.inj (Except.ok.inj (least.symm.trans hm))
  decide

end MeshCurve.Adapt
