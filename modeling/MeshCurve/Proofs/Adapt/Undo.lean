import MeshCurve.Proofs.Adapt.Settling

/-!
# Coarsening undoes refining

After a sweep that refines every leaf the array is a series of families.  A sweep that
merges every family it is offered takes them one after the other: it starts at the first
child of a leaf, where the family of that leaf is offered, and goes on behind the last one.
A family that was there before has become a series of families itself, and its members are
back as leaves only when the sweep has passed them.
-/

namespace MeshCurve.Adapt

open Element Leaves

variable {Client E : Type}

/-- Merges what is offered as a family, and keeps a leaf that is offered alone. -/
def gather (E : Type) : Policy Unit E := fun _ offered =>
  .ok (if 1 < offered.length then .coarsen else .keep, ())

theorem gather_willing (Q : E → Prop) : Willing Q (gather E) := by
  intro c offered _ _
  refine ⟨_, (), rfl, ?_⟩
  split
  · next several => exact fun _ => several
  · exact nofun

theorem gather_never_refines : Never (gather E) .refine := by
  intro c offered c' h
  rw [gather] at h
  split at h <;> cases h

theorem coarsen_of_ask {p p₁ : Progress Unit E} {offered : List E} {a : Action}
    (several : 1 < offered.length) (h : p.ask (gather E) offered = .ok (a, p₁)) :
    a = .coarsen := by
  have answer := (of_ask h).1
  rw [gather, if_pos several] at answer
  cases answer
  rfl

variable [Element E]

/-! ## Accounting for the input -/

/-- The leaves of the input: those still to come, those kept, those refined and the
families of those merged. -/
def Stage.inputs (s : Stage Client E) : Nat :=
  s.remaining.length + s.progress.stats.kept + s.progress.stats.refinements +
    branching E * s.progress.stats.coarsenings

theorem Move.inputs_eq {limits : Limits} {policy : Policy Client E} {s t : Stage Client E}
    (once : limits.recursive = false) (h : Move limits policy s t) : t.inputs = s.inputs := by
  unfold Stage.inputs
  cases h with
  | keep _ asked =>
      simp only [Progress.stats_keep, (of_ask asked).2.2.2, List.length_cons, List.length_nil]
      omega
  | refuse _ _ asked =>
      simp only [Progress.stats_keep, (of_ask asked).2.2.2, List.length_append, List.length_cons]
      omega
  | split _ asked =>
      simp only [Progress.stats_split, (of_ask asked).2.2.2, List.length_cons]
      omega
  | merge _ hf asked =>
      simp only [Progress.stats_merge, (of_ask asked).2.2.2, List.length_append, branching,
        ← length_children hf, Nat.mul_succ]
      omega
  | place => rfl
  | settle again | descend again => exact absurd again (by simp [once])

/-- A sweep that looks at every leaf once keeps it, refines it or merges its family. -/
theorem inputs_of_adapt [DecidableEq E] [LawfulNavigation E] {limits : Limits}
    {policy : Policy Client E} {client : Client} {leaves : Leaves E} {out : Outcome Client E}
    (once : limits.recursive = false) (valid : ∀ e ∈ leaves.toList, Valid e)
    (ran : adapt limits policy client leaves = .ok out) :
    out.stats.kept + out.stats.refinements + branching E * out.stats.coarsenings =
      leaves.size := by
  obtain ⟨p, moves, _, stats, _⟩ := exists_moves valid ran
  have same := eq_of_moves (Move.inputs_eq once) moves
  simp only [Stage.inputs, Progress.start, Stats.zero, List.length_nil] at same
  rw [stats, Leaves.size]
  omega

theorem Stats.eq_mk {stats : Stats} {refinements coarsenings kept : Nat}
    (hr : stats.refinements = refinements) (hc : stats.coarsenings = coarsenings)
    (hk : stats.kept = kept) : stats = ⟨refinements, coarsenings, kept⟩ := by
  subst hr hc hk
  rfl

/-- A sweep that refines nothing and leaves one leaf for every family it could have been
given has merged them all. -/
theorem stats_of_merging [DecidableEq E] [LawfulNavigation E] {limits : Limits}
    {policy : Policy Client E} {client : Client} {leaves : Leaves E} {out : Outcome Client E}
    (once : limits.recursive = false) (valid : ∀ e ∈ leaves.toList, Valid e)
    (ran : adapt limits policy client leaves = .ok out) (never : out.stats.refinements = 0)
    (families : leaves.size = branching E * out.leaves.size) :
    out.stats = ⟨0, out.leaves.size, 0⟩ := by
  obtain ⟨k, hk⟩ : ∃ k, branching E = k + 1 + 1 :=
    Nat.exists_eq_add_of_le' (Shape.numChildren_pos _)
  have sizes := size_of_adapt valid ran
  have inputs := inputs_of_adapt once valid ran
  have merged : out.stats.coarsenings = out.leaves.size := by
    rw [never, families, hk, Nat.add_sub_cancel, Nat.succ_mul (k + 1)] at sizes
    exact Nat.eq_of_mul_eq_mul_left (Nat.add_one_pos k) (by omega)
  rw [never, families, merged] at inputs
  exact Stats.eq_mk never merged (by omega)

/-! ## Families -/

theorem Move.exists_left {limits : Limits} {policy : Policy Client E} {s t : Stage Client E}
    (h : Move limits policy s t) : s.pending ≠ [] ∨ s.remaining ≠ [] := by
  cases h with
  | keep | split | refuse | merge => exact .inr (List.cons_ne_nil _ _)
  | place | settle | descend => exact .inl (List.cons_ne_nil _ _)

theorem RefinedOnce.exists_families {S : E → Prop} {xs ys : List E} {n : Nat}
    (h : RefinedOnce S xs ys n) (all : ∀ e ∈ xs, S e) :
    n = xs.length ∧ ∃ families, xs.mapM children = .ok families ∧ ys = families.flatten := by
  induction h with
  | nil => exact ⟨rfl, [], rfl, rfl⟩
  | rest stays _ _ => exact absurd (all _ List.mem_cons_self) stays
  | @split e xs ys cs n _ hcs _ ih =>
      obtain ⟨rfl, families, made, rfl⟩ := ih (List.forall_mem_cons.mp all).2
      refine ⟨rfl, cs :: families, ?_, rfl⟩
      rw [List.mapM_cons, hcs, ok_bind, made, ok_bind, pure_eq_ok]

theorem mapM_children_cons {e : E} {xs : List E} {families : List (List E)}
    (h : (e :: xs).mapM children = .ok families) :
    ∃ cs more, children e = .ok cs ∧ xs.mapM children = .ok more ∧ families = cs :: more := by
  rw [List.mapM_cons] at h
  obtain ⟨cs, hcs, h⟩ := bind_eq_ok_iff.mp h
  obtain ⟨more, hmore, h⟩ := bind_eq_ok_iff.mp h
  cases h
  exact ⟨cs, more, hcs, hmore, rfl⟩

section

variable [LawfulNavigation E] {limits : Limits} {s t : Stage Unit E} {e q : E} {cs more : List E}

theorem offered_family {first : E} {rest offered : List E} (he : Valid e)
    (hcs : children e = .ok cs) (head : first :: rest = cs ++ more)
    (offer : Offered (first :: rest) offered) : offered = cs := by
  have family : isFamily cs = .ok true :=
    (isFamily_of_valid fun c hc => valid_of_mem_children he hcs hc).eq_true ⟨e, he, hcs⟩
  have taken : (first :: rest).take (shape E).numChildren = cs := by
    rw [head, ← length_children hcs, List.take_left]
  rw [Offered, taken] at offer
  rcases offer with ⟨_, same⟩ | ⟨single, _⟩
  · exact same
  · cases single.symm.trans family

theorem eq_of_family {family rest : List E} (he : Valid e) (hq : Valid q)
    (hcs : children e = .ok cs) (hf : children q = .ok family)
    (head : family ++ rest = cs ++ more) : q = e ∧ rest = more := by
  have lengths : family.length = cs.length := (length_children hf).trans (length_children hcs).symm
  obtain ⟨rfl, rfl⟩ := List.append_inj head lengths
  obtain ⟨c, hc⟩ := List.exists_mem_of_ne_nil family (children_ne_nil hf)
  obtain ⟨i, _, down⟩ := (mem_children_iff hf).mp hc
  obtain ⟨j, _, down'⟩ := (mem_children_iff hcs).mp hc
  exact ⟨Except.ok.inj ((of_child hq down).2.1.symm.trans (of_child he down').2.1), rfl⟩

/-- The children of a leaf, which are offered together, make way for it. -/
theorem move_of_gather {l : Nat} (unlimited : limits.budget.maxCoarsenings = 0) (he : Valid e)
    (hl : level e = .ok l) (coarse : limits.minLevel ≤ l) (hcs : children e = .ok cs)
    (nothing : s.pending = []) (head : s.remaining = cs ++ more)
    (h : Move limits (gather E) s t) :
    t.pending = [] ∧ t.remaining = more ∧
      t.progress.leaves.toList = s.progress.leaves.toList ++ [e] := by
  cases h with
  | keep offer asked kept =>
      obtain rfl := offered_family he hcs head offer
      exact absurd (coarsen_of_ask (one_lt_length_children hcs) asked) kept
  | split _ asked => exact absurd (of_ask asked).1 (gather_never_refines _ _ _)
  | refuse hq hf _ refused =>
      obtain ⟨rfl, _⟩ := eq_of_family he hq hcs hf head
      obtain ⟨l', hl', level⟩ := level_of_mem_children hf List.mem_cons_self
      cases hl.symm.trans hl'
      exact absurd (mayCoarsen_of_unlimited unlimited level (Nat.lt_succ_of_le coarse)) refused
  | merge hq hf asked =>
      obtain ⟨rfl, rfl⟩ := eq_of_family he hq hcs hf head
      exact ⟨rfl, rfl, by rw [Progress.leaves_merge, (of_ask asked).2.1]⟩
  | place | settle | descend => cases nothing

/-- A sweep over the families of some leaves brings these leaves back. -/
theorem leaves_of_gather {p : Progress Unit E} {leaves : List E} {families : List (List E)}
    (unlimited : limits.budget.maxCoarsenings = 0)
    (coarse : ∀ e ∈ leaves, Valid e ∧ ∃ l, level e = .ok l ∧ limits.minLevel ≤ l)
    (made : leaves.mapM children = .ok families) (nothing : s.pending = [])
    (whole : s.remaining = families.flatten) (h : Moves limits (gather E) s ⟨[], [], p⟩) :
    p.leaves.toList = s.progress.leaves.toList ++ leaves := by
  induction h using Relation.ReflTransGen.head_induction_on generalizing leaves families with
  | refl =>
      cases leaves with
      | nil => exact (List.append_nil _).symm
      | cons e leaves =>
          obtain ⟨cs, more, hcs, _, rfl⟩ := mapM_children_cons made
          exact absurd (List.append_eq_nil_iff.mp whole.symm).1 (children_ne_nil hcs)
  | head move _ ih =>
      cases leaves with
      | nil =>
          cases made
          exact absurd move.exists_left (by simp [nothing, whole])
      | cons e leaves =>
          obtain ⟨cs, more, hcs, hmore, rfl⟩ := mapM_children_cons made
          obtain ⟨⟨he, l, hl, hle⟩, later⟩ := List.forall_mem_cons.mp coarse
          obtain ⟨done, behind, new⟩ := move_of_gather unlimited he hl hle hcs nothing whole move
          rw [ih later hmore done behind, new, List.append_assoc, List.singleton_append]

end

/-- Refining every leaf and then merging every family that is offered gives back the same
array, wherever its leaves lie and whatever families they form.  The first sweep refines
once for each leaf, the second one merges as often, and neither keeps anything. -/
theorem gather_undoes_refining (s : Shape) {leaves : Leaves s.Carrier}
    (valid : ∀ e ∈ leaves.toList, Valid e) (separate : Separate leaves) (limits : Limits)
    (once : limits.recursive = false) (unlimited : limits.budget = .unlimited)
    (levels : ∀ e ∈ leaves.toList, ∃ l, level e = .ok l ∧ limits.minLevel ≤ l ∧
      l < limits.effectiveMaxLevel s.Carrier) :
    ∃ fine families coarse,
      adapt limits (refineWhere fun _ => true) () leaves = .ok fine ∧
        leaves.toList.mapM children = .ok families ∧ fine.leaves.toList = families.flatten ∧
        fine.stats = ⟨leaves.size, 0, 0⟩ ∧
        adapt limits (gather s.Carrier) () fine.leaves = .ok coarse ∧
        coarse.leaves = leaves ∧ coarse.stats = ⟨0, leaves.size, 0⟩ := by
  have spread : Spread leaves.toList := ⟨valid, (separate_iff valid).mp separate⟩
  have freely : limits.budget.maxRefinements = 0 := by rw [unlimited]; rfl
  have freely' : limits.budget.maxCoarsenings = 0 := by rw [unlimited]; rfl
  obtain ⟨fine, ran, spread', coarsenings, refined, _⟩ :=
    exists_refining_pass limits (fun _ => true) freely spread
  have all : ∀ e ∈ leaves.toList, Splits limits (fun _ => true) e := by
    intro e he
    obtain ⟨l, hl, _, room⟩ := levels e he
    refine ⟨?_, rfl⟩
    rw [Limits.allowsRefine, hl, ok_bind, decide_eq_true room, pure_eq_ok]
  obtain ⟨refinements, families, made, whole⟩ := (refined once).exists_families all
  have cooperates := (gather_willing Valid).cooperates hereditary_valid limits () spread'.valid
  obtain ⟨coarse, ran', _⟩ := exists_adapt cooperates spread'.valid spread'.apart
  obtain ⟨p, moves, new, _, _⟩ := exists_moves spread'.valid ran'
  have back : coarse.leaves.toList = leaves.toList := by
    rw [new, leaves_of_gather freely' ?_ made rfl whole moves]
    · rfl
    · intro e he
      obtain ⟨l, hl, above, _⟩ := levels e he
      exact ⟨valid e he, l, hl, above⟩
  refine ⟨fine, families, coarse, ran, made, whole, ?_, ran', congrArg Leaves.mk back, ?_⟩
  · have inputs := inputs_of_adapt once valid ran
    rw [coarsenings, refinements, Leaves.size] at inputs
    exact Stats.eq_mk refinements coarsenings (by omega)
  · have never := refinements_of_adapt spread'.valid ran' gather_never_refines
    have sizes := size_of_adapt valid ran
    rw [coarsenings, refinements, Leaves.size, Leaves.size, Nat.mul_zero, Nat.add_zero,
      Nat.add_comm, ← Nat.succ_mul, Nat.succ_eq_add_one, Nat.sub_add_cancel (branching_pos _)]
      at sizes
    have merged : coarse.leaves.size = leaves.size := congrArg List.length back
    rw [← merged]
    exact stats_of_merging once spread'.valid ran' never (by rw [merged]; exact sizes)

/-- The family at the head of `mixedQuads` is not merged with its parent's. -/
theorem gather_undoes_refining_quad :
    (∀ e ∈ mixedQuads.toList, Valid e ∧ ∃ l, level e = .ok l ∧ 1 ≤ l ∧ l < 3) ∧
      Separate mixedQuads ∧
      ∃ fine coarse, adapt ⟨1, 3, false, .unlimited⟩ (refineWhere fun _ => true) () mixedQuads =
          .ok fine ∧ fine.stats = ⟨5, 0, 0⟩ ∧
        adapt ⟨1, 3, false, .unlimited⟩ (gather Quad) () fine.leaves = .ok coarse ∧
        coarse.leaves = mixedQuads ∧ coarse.stats = ⟨0, 5, 0⟩ := by
  have valid : ∀ e ∈ mixedQuads.toList, Valid e := by decide
  have levels : ∀ e ∈ mixedQuads.toList, ∃ l, level e = .ok l ∧ 1 ≤ l ∧ l < 3 := by
    simp only [mixedQuads, List.forall_mem_cons]
    refine ⟨⟨2, rfl, ?_⟩, ⟨2, rfl, ?_⟩, ⟨2, rfl, ?_⟩, ⟨2, rfl, ?_⟩, ⟨1, rfl, ?_⟩, by simp⟩
    all_goals decide
  obtain ⟨fine, _, coarse, ran, _, _, stats, ran', back, stats'⟩ := gather_undoes_refining .quad
    valid separate_mixedQuads ⟨1, 3, false, .unlimited⟩ rfl rfl levels
  exact ⟨fun e he => ⟨valid e he, levels e he⟩, separate_mixedQuads, fine, coarse, ran, stats,
    ran', back, stats'⟩

end MeshCurve.Adapt
