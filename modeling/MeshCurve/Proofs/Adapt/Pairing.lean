import MeshCurve.Proofs.Adapt.Changes

/-!
# Pairing finds the changes

Two cursors and the ancestor test are enough to read the changes of a pass off its
two leaf arrays.  The new leaves of one change lie apart from the old leaves of every
other, so that a run ends exactly where its change does.
-/

namespace MeshCurve.Adapt

open Element

variable {Client E : Type} [Element E]

/-! ## Old and new leaves -/

theorem Cuts.level_lt {e r : E} {cs run : List E} (hcs : children e = .ok cs)
    (h : Cuts cs run) (hr : r ∈ run) {l m : Nat} (hl : level e = .ok l) (hm : level r = .ok m) :
    l < m := by
  obtain ⟨c, hc, below⟩ := h.exists_below hr
  obtain ⟨_, hl', hc'⟩ := level_of_mem_children hcs hc
  cases hl.symm.trans hl'
  exact below.level_le hc' hm

theorem Cuts.branching_le {e : E} {cs run : List E} (hcs : children e = .ok cs)
    (h : Cuts cs run) : branching E ≤ run.length :=
  (length_children hcs).ge.trans h.length_le

theorem Cuts.below_element {e r : E} {cs run : List E} (hcs : children e = .ok cs) (h : Cuts cs run)
    (hr : r ∈ run) : Below e r := by
  obtain ⟨c, hc, below⟩ := h.exists_below hr
  exact (below_of_mem_children hcs hc).trans below

/-- A new leaf is below an old one, or an old one is below it. -/
theorem Change.exists_related {x : Exchange E} (hx : Change x) {r : E} (hr : r ∈ x.incoming) :
    ∃ e ∈ x.outgoing, Below e r ∨ Valid r ∧ Below r e := by
  cases hx with
  | carried e =>
      rw [List.mem_singleton.mp hr]
      exact ⟨e, List.mem_cons_self, .inl (.refl e)⟩
  | split hcs cuts => exact ⟨_, List.mem_cons_self, .inl (cuts.below_element hcs hr)⟩
  | @merged p family hp hf =>
      rw [List.mem_singleton.mp hr]
      obtain ⟨c, hc, _⟩ := getElem?_children hf (branching_pos E)
      have member := List.mem_of_getElem? hc
      exact ⟨c, member, .inr ⟨hp, below_of_mem_children hf member⟩⟩

theorem exists_related {changes : List (Exchange E)} (hc : ∀ x ∈ changes, Change x) {r : E}
    (hr : r ∈ incoming changes) : ∃ e ∈ outgoing changes, Below e r ∨ Valid r ∧ Below r e := by
  obtain ⟨x, hx, hr⟩ := List.mem_flatMap.mp hr
  obtain ⟨e, he, related⟩ := (hc x hx).exists_related hr
  exact ⟨e, List.mem_flatMap.mpr ⟨x, hx, he⟩, related⟩

theorem not_below_of_apart_children {p y : E} {family : List E} (hf : children p = .ok family)
    (apart : ∀ c ∈ family, Apart c y) : ¬ Below p y := by
  intro below
  by_cases same : y = p
  · obtain ⟨c, hc, _⟩ := getElem?_children hf (branching_pos E)
    have member := List.mem_of_getElem? hc
    exact (apart c member).2 (same ▸ below_of_mem_children hf member)
  · obtain ⟨c, hc, under⟩ := exists_child_below hf below same
    exact (apart c hc).1 under

section

variable [LawfulForest E]

theorem valid_of_mem_incoming {changes : List (Exchange E)} (hc : ∀ x ∈ changes, Change x)
    (hv : ∀ e ∈ outgoing changes, Valid e) {r : E} (hr : r ∈ incoming changes) : Valid r := by
  obtain ⟨e, he, below | ⟨valid, _⟩⟩ := exists_related hc hr
  · exact below.valid (hv e he)
  · exact valid

/-- What is apart from the old leaves has no new leaf below it. -/
theorem not_below_of_mem_incoming {changes : List (Exchange E)} (hc : ∀ x ∈ changes, Change x)
    (hv : ∀ e ∈ outgoing changes, Valid e) {a r : E} (ha : Valid a)
    (apart : ∀ e ∈ outgoing changes, Apart a e) (hr : r ∈ incoming changes) : ¬ Below a r := by
  intro below
  obtain ⟨e, he, above | ⟨_, under⟩⟩ := exists_related hc hr
  · rcases below.comparable ha (hv e he) above with ab | ba
    · exact (apart e he).1 ab
    · exact (apart e he).2 ba
  · exact (apart e he).1 (below.trans under)

end

/-! ## Runs -/

section

variable [DecidableEq E] [LawfulNavigation E]

theorem leadingDescendants_eq {a : E} (ha : Valid a) {run rest : List E}
    (hrun : ∀ r ∈ run, Below a r) (hrest : ∀ x ∈ rest, Valid x ∧ ¬ Below a x) (found : Nat) :
    Exchange.leadingDescendants a found (run ++ rest) = .ok (found + run.length) := by
  induction run generalizing found with
  | nil =>
      cases rest with
      | nil => rfl
      | cons x rest =>
          obtain ⟨hx, apart⟩ := hrest x List.mem_cons_self
          rw [List.nil_append, Exchange.leadingDescendants,
            (isAncestor_of_valid ha hx).eq_false apart, ok_bind]
          rfl
  | cons r run ih =>
      have below := hrun r List.mem_cons_self
      rw [List.cons_append, Exchange.leadingDescendants,
        (isAncestor_of_valid ha (below.valid ha)).eq_true below, ok_bind, if_pos rfl,
        ih fun d hd => hrun d (List.mem_cons_of_mem _ hd), List.length_cons]
      congr 1
      omega

theorem pairFrom_split {e b : E} {olds run rest : List E} {l m : Nat} (he : Valid e)
    (hrun : ∀ r ∈ b :: run, Below e r) (hrest : ∀ x ∈ rest, Valid x ∧ ¬ Below e x)
    (hl : level e = .ok l) (hm : level b = .ok m) (hlt : l < m) (paired : Array (Exchange E)) :
    Exchange.pairFrom (e :: olds) (b :: run ++ rest) paired =
      Exchange.pairFrom olds rest (paired.push ⟨[e], b :: run⟩) := by
  have differ : e ≠ b := by
    rintro rfl
    cases hl.symm.trans hm
    omega
  have count := leadingDescendants_eq he hrun hrest 0
  rw [List.cons_append] at count ⊢
  rw [Exchange.pairFrom, if_neg differ, hl, ok_bind, hm, ok_bind, if_pos hlt, count, ok_bind,
    Nat.zero_add, ← List.cons_append, List.drop_left, List.take_left]

theorem pairFrom_merged {p a : E} {family olds news : List E} {l m : Nat} (hp : Valid p)
    (hfamily : ∀ r ∈ a :: family, Below p r) (hrest : ∀ x ∈ olds, Valid x ∧ ¬ Below p x)
    (hl : level p = .ok l) (hm : level a = .ok m) (hlt : l < m) (paired : Array (Exchange E)) :
    Exchange.pairFrom (a :: family ++ olds) (p :: news) paired =
      Exchange.pairFrom olds news (paired.push ⟨a :: family, [p]⟩) := by
  have differ : a ≠ p := by
    rintro rfl
    cases hl.symm.trans hm
    omega
  have count := leadingDescendants_eq hp hfamily hrest 0
  rw [List.cons_append] at count ⊢
  rw [Exchange.pairFrom, if_neg differ, hm, ok_bind, hl, ok_bind, if_neg (Nat.not_lt.mpr hlt.le),
    count, ok_bind, Nat.zero_add, ← List.cons_append, List.drop_left, List.take_left]

/-! ## The whole array -/

/-- Pairing gives back the changes, one by one. -/
theorem pairFrom_eq {changes : List (Exchange E)} (hc : ∀ x ∈ changes, Change x)
    (hv : ∀ e ∈ outgoing changes, Valid e) (apart : (outgoing changes).Pairwise Apart)
    (paired : Array (Exchange E)) :
    Exchange.pairFrom (outgoing changes) (incoming changes) paired =
      .ok (paired ++ changes.toArray) := by
  induction changes generalizing paired with
  | nil =>
      rw [outgoing_nil, incoming_nil, Exchange.pairFrom, pure_eq_ok]
      simp
  | cons x changes ih =>
      obtain ⟨hx, hrest⟩ := List.forall_mem_cons.mp hc
      rw [outgoing_cons] at hv apart ⊢
      rw [incoming_cons]
      obtain ⟨_, apart', across⟩ := List.pairwise_append.mp apart
      obtain ⟨hvx, hvr⟩ := List.forall_mem_append.mp hv
      have later := ih hrest hvr apart'
      have whole : paired.push x ++ changes.toArray = paired ++ (x :: changes).toArray := by simp
      cases hx with
      | carried e =>
          rw [List.singleton_append, List.singleton_append, Exchange.pairFrom, if_pos rfl, later,
            whole]
      | @split e cs run hcs cuts =>
          have he := hvx e List.mem_cons_self
          have several : 0 < run.length := (branching_pos E).trans_le (Cuts.branching_le hcs cuts)
          obtain ⟨b, run, rfl⟩ := List.exists_cons_of_length_pos several
          have below : ∀ r ∈ b :: run, Below e r := fun r hr => cuts.below_element hcs hr
          obtain ⟨l, _, hl⟩ := level_of_valid he
          obtain ⟨m, _, hm⟩ := level_of_valid ((below b List.mem_cons_self).valid he)
          have finer := cuts.level_lt hcs List.mem_cons_self hl hm
          have past : ∀ y ∈ incoming changes, Valid y ∧ ¬ Below e y := fun y hy =>
            ⟨valid_of_mem_incoming hrest hvr hy,
              not_below_of_mem_incoming hrest hvr he (across e List.mem_cons_self) hy⟩
          rw [List.singleton_append, pairFrom_split he below past hl hm finer, later, whole]
      | @merged p family hp hf =>
          have several : 0 < family.length := length_children hf ▸ branching_pos E
          obtain ⟨a, family, rfl⟩ := List.exists_cons_of_length_pos several
          have below : ∀ r ∈ a :: family, Below p r := fun r hr => below_of_mem_children hf hr
          obtain ⟨l, hl, hm⟩ := level_of_mem_children hf List.mem_cons_self
          have past : ∀ y ∈ outgoing changes, Valid y ∧ ¬ Below p y := fun y hy =>
            ⟨hvr y hy, not_below_of_apart_children hf fun c hc => across c hc y hy⟩
          rw [List.singleton_append, pairFrom_merged hp below past hl hm (Nat.lt_succ_self l),
            later, whole]

section

variable {policy : Policy Client E} {client : Client} {leaves : Leaves E} {limits : Limits}

theorem exists_adapt_of_not_balks
    (h : ¬ Balks Valid policy leaves.toList (.start client)
      (sweep limits policy leaves.toList (.start client)))
    (valid : ∀ e ∈ leaves.toList, Valid e) (apart : leaves.toList.Pairwise Apart) :
    ∃ out, adapt limits policy client leaves = .ok out ∧ (∀ x ∈ out.exchanges, Change x) ∧
      outgoing out.exchanges = leaves.toList ∧ incoming out.exchanges = out.leaves.toList := by
  obtain ⟨p, changes, swept, _, hc, out, new⟩ :=
    sweeps h hereditary_valid (.refl policy _) (fun _ he => he) valid
  rw [Progress.leaves_start, List.nil_append] at new
  have paired := pairFrom_eq hc (out ▸ valid) (out ▸ apart) #[]
  have pairs : Exchange.pair leaves.toList p.leaves.toList = .ok changes := by
    rw [Exchange.pair, new, ← out, paired, ok_bind, pure_eq_ok]
    simp
  refine ⟨⟨p.client, p.offers.toList, ⟨p.leaves.toList⟩, p.groups.toList, p.stats, changes⟩, ?_,
    hc, out, new.symm⟩
  rw [adapt, swept, ok_bind, during_of_ok pairs, ok_bind, pure_eq_ok]

/-- A pass finishes, and what it reports are its changes. -/
theorem exists_adapt (h : Cooperates limits policy client leaves)
    (valid : ∀ e ∈ leaves.toList, Valid e) (apart : leaves.toList.Pairwise Apart) :
    ∃ out, adapt limits policy client leaves = .ok out ∧ (∀ x ∈ out.exchanges, Change x) ∧
      outgoing out.exchanges = leaves.toList ∧ incoming out.exchanges = out.leaves.toList :=
  exists_adapt_of_not_balks h.not_balks valid apart

theorem changes_of_adapt {out : Outcome Client E}
    (ran : adapt limits policy client leaves = .ok out)
    (valid : ∀ e ∈ leaves.toList, Valid e) (apart : leaves.toList.Pairwise Apart) :
    (∀ x ∈ out.exchanges, Change x) ∧ outgoing out.exchanges = leaves.toList ∧
      incoming out.exchanges = out.leaves.toList := by
  obtain ⟨p, swept, _⟩ := bind_eq_ok_iff.mp ran
  obtain ⟨out', ran', changes⟩ := exists_adapt_of_not_balks (swept ▸ not_balks_ok p) valid apart
  cases ran.symm.trans ran'
  exact changes

end

end

end MeshCurve.Adapt
