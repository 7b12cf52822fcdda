import MeshCurve.Proofs.Cell.KuhnTree

/-!
# The curve of Kuhn simplices

An id is read off upwards and decoded downwards along the tables, one digit per
level.  The next element of a level turns off where the carry ends: up to there it
has the ancestors of its predecessor, and from there on it goes along first children.
-/

namespace MeshCurve.Kuhn

open Element

section

variable {K : Type} [Kuhn K] {e s : K} {target : Nat}

/-- The element of `target` that the way to the next one starts from. -/
def Start (e : K) (target : Nat) (s : K) : Prop :=
  if target ≤ level e then ancestor e target = .ok s else retype e (type e) target = s

theorem successor_of_stuck {f : Fault} (h1 : 1 ≤ target) (ht : target ≤ depth K)
    (start : Start e target s) (stop : carry s target (type s) = .error f) :
    successor e target = .error f := by
  unfold Start at start
  rw [successor, require_of_true ⟨h1, ht⟩, ok_bind]
  split at start
  · next hle => simp only [if_pos hle, start, stop, ok_bind, error_bind]
  · next hlt => simp only [if_neg hlt, start, stop, ok_bind, pure_eq_ok, error_bind]

theorem start_of_level [DecidableEq K] [Element K] [KuhnElement K] (ht : target ≤ depth K)
    (up : target ≤ level e → Element.ancestor e target = .ok s)
    (down : level e ≤ target → Element.firstDescendant e target = .ok s) : Start e target s := by
  rw [KuhnElement.ancestor_eq] at up
  rw [KuhnElement.firstDescendant_eq] at down
  unfold Start
  split
  · next hle => exact up hle
  · next hlt =>
      have hle : level e ≤ target := Nat.le_of_not_le hlt
      have first := down hle
      rw [firstDescendant, require_of_true ⟨hle, ht⟩, ok_bind, pure_eq_ok] at first
      exact Except.ok.inj first

variable [LawfulKuhn K]

theorem successor_of_carry {m t j cube t' : Nat} (h1 : 1 ≤ target) (ht : target ≤ depth K)
    (start : Start e target s) (stop : carry s target (type s) = .ok (m + 1, t, j))
    (link : Link K t (j + 1) cube t') (hm : m < depth K) :
    successor e target = .ok (retype (placed (cutAt s m) (m + 1) cube) t' target) := by
  unfold Start at start
  rw [successor, require_of_true ⟨h1, ht⟩, ok_bind]
  split at start
  · next hle =>
      simp only [if_pos hle, start, stop, ok_bind, Nat.add_sub_cancel, cut_eq hm.le, link.1.1,
        link.1.2, withCubeId_eq hm, pure_eq_ok]
  · next hlt =>
      simp only [if_neg hlt, start, stop, ok_bind, Nat.add_sub_cancel, cut_eq hm.le, link.1.1,
        link.1.2, withCubeId_eq hm, pure_eq_ok]

theorem link_of_child {c : K} {i : Nat} (he : Valid e) (h : child e i = .ok c) :
    level e < depth K ∧ level c = level e + 1 ∧
      Link K (type e) i (cubeOf c (level e + 1)) (type c) ∧
      ∀ m ≤ level e, cubeOf e m = cubeOf c m := by
  obtain ⟨hl, cube, hcube, t', _, link, rfl⟩ := exists_link_of_child he h
  refine ⟨hl, by simp, ?_, ?_⟩
  · rwa [cubeOf_retype, cubeOf_placed hcube, type_retype]
  · intro m hm
    rw [cubeOf_retype, cubeOf_placed_of_lt (Nat.lt_succ_of_le hm) hl]

theorem descend_cons {c : K} {level id j : Nat} (he : Valid e) (hc : child e j = .ok c)
    (digit : id >>> ((shape K).dimension * (level - (Kuhn.level e + 1))) %
      (shape K).numChildren = j) (levels : List Nat) :
    descend level id ((Kuhn.level e + 1) :: levels) e = descend level id levels c := by
  obtain ⟨hl, cube, _, t', _, link, rfl⟩ := exists_link_of_child he hc
  rw [descend, digit, link.1.1, ok_bind, withCubeId_eq hl, ok_bind, link.1.2, ok_bind]

theorem carry_step {d c : K} {j : Nat} (hd : Valid d) (hc : child d j = .ok c)
    (same : ∀ m ≤ level d + 1, cubeOf e m = cubeOf c m) :
    carry e (level d + 1) (type c) =
      if j + 1 ≠ (shape K).numChildren then .ok (level d + 1, type d, j)
      else carry e (level d) (type d) := by
  obtain ⟨hlt, _, link, _⟩ := link_of_child hd hc
  rw [carry, cubeId_eq (Nat.succ_pos _) hlt, ok_bind, same _ le_rfl, link.2.2, ok_bind,
    link.2.1, ok_bind, pure_eq_ok]

variable [DecidableEq K] [Element K] [KuhnElement K]

/-- The next element is reached from the turn along first children. -/
theorem successor_of_turn {p c : K} {j : Nat} (h1 : 1 ≤ target) (ht : target ≤ depth K)
    (start : Start e target s) (hp : Element.Valid p) (below : Below p s)
    (stop : carry s target (type s) = .ok (level p + 1, type p, j))
    (hc : child p (j + 1) = .ok c) :
    successor e target = .ok (retype c (type c) target) := by
  obtain ⟨hlt, cube, _, t', _, link, rfl⟩ :=
    exists_link_of_child ((KuhnElement.valid_iff p).mp hp) hc
  have anchor := coords_cutAt_of_below hp below
  rw [successor_of_carry h1 ht start stop link hlt]
  exact congrArg Except.ok (LawfulKuhn.ext (by simp [← anchor]) (by simp) (by simp))

theorem descend_eq {a : K} {level id n : Nat} (ha : Element.Valid a)
    (hn : Kuhn.level a + n = level)
    (h : Descends a n (id % (shape K).numChildren ^ n) e) :
    descend level id (List.range' (Kuhn.level a + 1) n) a = .ok e := by
  induction n generalizing a with
  | zero =>
      rw [(descends_zero_iff.mp h).2]
      rfl
  | succ n ih =>
      -- The first digit leads to the child `c`, the others from there on.
      rw [Nat.add_comm] at h
      obtain ⟨c, hac, hce⟩ := h.split
      obtain ⟨_, hc⟩ := descends_one_iff.mp hac
      have hlc := (link_of_child ((KuhnElement.valid_iff a).mp ha)
        (KuhnElement.child_eq (K := K) ▸ hc)).2.1
      rw [branching_eq, Nat.add_comm, pow_succ, Nat.mod_mul_right_mod] at hce
      rw [branching_eq, Nat.add_comm, pow_succ, Nat.mod_mul_right_div_self,
        KuhnElement.child_eq] at hc
      rw [List.range'_succ, descend_cons ((KuhnElement.valid_iff a).mp ha) hc, ← hlc]
      · exact ih (of_child ha (KuhnElement.child_eq (K := K) ▸ hc)).1 (by omega) hce
      · rw [Shape.shiftRight_eq_div]
        congr 3
        omega

end

/-! ## Encoding -/

section

variable {K : Type} [Kuhn K] [DecidableEq K] [Element K] [KuhnElement K] {e r : K}
  {l i target : Nat}

theorem level_of_descends_top (top : level r = 0) (h : Descends r l i e) : level e = l := by
  have hl := h.level (KuhnElement.level_eq r)
  rw [KuhnElement.level_eq, top, Nat.zero_add] at hl
  exact Except.ok.inj hl

variable [LawfulKuhn K]

theorem idFrom_of_descends (hr : Valid r) (top : level r = 0) (target : Nat) {a : K}
    (h : Descends r l i a) (hl : l ≤ level e) (same : ∀ m ≤ l, cubeOf e m = cubeOf a m)
    (id : Nat) :
    idFrom e target l (type a) id =
      .ok (id + idAt (shape K).numChildren l i (min target (level e))) := by
  induction h generalizing id with
  | here => simp [idFrom, idAt_of_ge, pure_eq_ok]
  | @child d c l i j h hj hc ih =>
      have hd := (KuhnElement.valid_iff d).mp (h.valid ((KuhnElement.valid_iff r).mpr hr))
      rw [KuhnElement.child_eq] at hc
      rw [branching_eq] at hj ⊢
      obtain ⟨hlt, hlc, link, coarser⟩ := link_of_child hd hc
      rw [level_of_descends_top top h] at hlt hlc link coarser
      have rest := ih (by omega) fun m hm => (same m (by omega)).trans (coarser m hm).symm
      rw [idFrom, cubeId_eq (Nat.succ_pos l) hlt, ok_bind, same (l + 1) le_rfl]
      by_cases ht : l + 1 ≤ target
      · simp only [if_pos ht, link.2.2, ok_bind, pure_eq_ok, link.2.1, rest,
          idAt_child_of_lt (show l < min target (level e) by omega), Shape.shiftLeft_eq_mul]
        congr 1
        omega
      · simp only [if_neg ht, ok_bind, pure_eq_ok, link.2.1, rest,
          idAt_child_of_le hj (show min target (level e) ≤ l by omega)]

/-- The id is the number below the topmost ancestor, whatever the type of that. -/
theorem linearId_eq (hr : Valid r) (top : level r = 0) (h : Descends r l i e)
    (ht : target ≤ depth K) :
    linearId e target = .ok (idAt (shape K).numChildren l i target) := by
  have hl := level_of_descends_top top h
  have collect := idFrom_of_descends hr top target h hl.ge (fun m _ => rfl) 0
  rw [hl, Nat.zero_add] at collect
  rw [linearId, require_of_true ht, ok_bind, hl, collect, ok_bind, pure_eq_ok,
    Shape.shiftLeft_eq_mul]
  rcases Nat.le_total target l with hle | hge
  · rw [Nat.min_eq_left hle, Nat.sub_eq_zero_of_le hle, pow_zero, Nat.mul_one]
  · rw [Nat.min_eq_right hge, idAt_self, idAt_of_ge hge]

end

/-! ## The root -/

/-- Vertices are looked at in turn; if the first one lies inside, all of them can be computed. -/
theorem decides_allM_vertices {V : Type} {vertex : Nat → Except Fault V} {corner : Nat → V}
    {within : V → Prop} [DecidablePred within] {n : Nat} (first : vertex 0 = .ok (corner 0))
    (others : within (corner 0) → ∀ v < n + 1, vertex v = .ok (corner v)) :
    Decides ((List.range (n + 1)).allM fun v => do
      let p ← vertex v
      return decide (within p)) (∀ v ∈ List.range (n + 1), within (corner v)) := by
  rw [List.range_succ_eq_map]
  refine Decides.allM_cons (.after first decides_of_ok) fun h v hv => ?_
  obtain ⟨i, hi, rfl⟩ := List.mem_map.mp hv
  exact .after (others h _ (Nat.succ_lt_succ (List.mem_range.mp hi))) decides_of_ok

/-- The cell that a simplex starts in, axis by axis, in units of its edges. -/
def cellOf {K : Type} [Kuhn K] (e : K) : List Int := (coords e).map (· / 2 ^ pos K (level e))

/-- Where the root lies on a level on which it is `m` cells long. -/
class Rooted (K : Type) where
  Inside : (type : Nat) → (cell : List Int) → (m : Int) → Prop

/-- What is left to prove about the root of the shape. -/
class KuhnRoot (K : Type) [Kuhn K] [Element K] [Rooted K] : Prop where
  coords_root : coords (root : K) = List.replicate (shape K).dimension 0
  type_root : type (root : K) = 0
  level_root : level (root : K) = 0
  isInsideRoot_decides {e : K} : Valid e →
    Decides (Element.isInsideRoot e) (Rooted.Inside K (type e) (cellOf e) (2 ^ level e))
  inside_child_iff {t i cube t' : Nat} {cell : List Int} {m : Int} :
    cube < (shape K).numChildren → t' < (shape K).numTypes → Link K t i cube t' →
      cell.length = (shape K).dimension →
        (Rooted.Inside K t' (cell.mapIdx fun axis (p : Int) =>
          2 * p + ((cube >>> axis % 2 : Nat) : Int)) (2 * m) ↔ Rooted.Inside K t cell m)
  inside_one_iff {t : Nat} {cell : List Int} : t < (shape K).numTypes →
    cell.length = (shape K).dimension → (Rooted.Inside K t cell 1 ↔ t = 0 ∧ ∀ p ∈ cell, p = 0)

export KuhnRoot (coords_root type_root isInsideRoot_decides inside_child_iff inside_one_iff)

section

variable {K : Type} [Kuhn K] {e : K}

theorem valid_root [Element K] [Rooted K] [KuhnRoot K] : Valid (root : K) := by
  rw [Valid, KuhnRoot.level_root, type_root, coords_root]
  refine ⟨Nat.zero_le _, Shape.numTypes_pos _, fun c hc => ?_⟩
  obtain rfl := List.eq_of_mem_replicate hc
  exact Coord.aligned_zero _

variable [LawfulKuhn K]

theorem length_cellOf (e : K) : (cellOf e).length = (shape K).dimension := by
  rw [cellOf, List.length_map, length_coords]

theorem cellOf_child {t cube : Nat} (hl : level e < depth K) :
    cellOf (retype (placed e (level e + 1) cube) t (level e + 1)) =
      (cellOf e).mapIdx fun axis (p : Int) => 2 * p + ((cube >>> axis % 2 : Nat) : Int) := by
  rw [cellOf, coords_retype, level_retype, coords_placed, Coord.map_div_stamp (pos_lt K _), cellOf,
    pos_eq_succ hl]

theorem forall_cellOf_eq_zero_iff (he : Valid e) :
    (∀ p ∈ cellOf e, p = 0) ↔ coords e = List.replicate (shape K).dimension 0 := by
  rw [cellOf, List.forall_mem_map, List.eq_replicate_iff, and_iff_right (length_coords e)]
  refine forall₂_congr fun c hc => ⟨fun zero => ?_, fun zero => by rw [zero, Int.zero_ediv]⟩
  rw [(he.aligned c hc).eq_mul, zero, Int.zero_mul]

variable [Element K] [Rooted K] [KuhnRoot K]

theorem isInsideRoot_child {c : K} {i : Nat} (he : Valid e) (hc : child e i = .ok c) :
    Element.isInsideRoot c = Element.isInsideRoot e := by
  obtain ⟨hl, cube, hcube, t', ht', link, rfl⟩ := exists_link_of_child he hc
  refine (isInsideRoot_decides (valid_child he hl ht' cube)).eq_of_iff (isInsideRoot_decides he) ?_
  rw [type_retype, cellOf_child hl, level_retype, pow_succ']
  exact inside_child_iff hcube ht' link (length_cellOf e)

/-- Of the simplices of the coarsest level the root alone lies in it. -/
theorem isInsideRoot_of_level_zero (he : Valid e) (hl : level e = 0) :
    Decides (Element.isInsideRoot e) (e = root) := by
  have test := isInsideRoot_decides he
  rw [hl, pow_zero] at test
  refine test.congr ?_
  rw [inside_one_iff he.2.1 (length_cellOf e), forall_cellOf_eq_zero_iff he]
  constructor
  · rintro ⟨first, start⟩
    exact LawfulKuhn.ext (start.trans coords_root.symm) (first.trans type_root.symm)
      (hl.trans KuhnRoot.level_root.symm)
  · rintro rfl
    exact ⟨type_root, coords_root⟩

end

section

variable {K : Type} [Kuhn K] [DecidableEq K] [Element K] [KuhnElement K] [Rooted K] [KuhnRoot K]
  {e : K} {l i target : Nat}

theorem root_valid : Element.Valid (Element.root : K) := by
  rw [KuhnElement.root_eq, KuhnElement.valid_iff]
  exact valid_root

theorem root_level : Element.level (Element.root : K) = .ok 0 := by
  rw [KuhnElement.root_eq, KuhnElement.level_eq, KuhnRoot.level_root]

theorem level_of_descends (h : Descends (Element.root : K) l i e) : level e = l := by
  rw [KuhnElement.root_eq] at h
  exact level_of_descends_top KuhnRoot.level_root h

variable [LawfulKuhn K]

theorem valid_of_descends (h : Descends (Element.root : K) l i e) : Valid e :=
  (KuhnElement.valid_iff e).mp (h.valid root_valid)

theorem level_le_of_descends (h : Descends (Element.root : K) l i e) : l ≤ depth K :=
  level_of_descends h ▸ (valid_of_descends h).1

/-! ## Decoding -/

theorem ofLinearId_eq (h : Descends (Element.root : K) l i e) : ofLinearId l i = .ok e := by
  have inside : i < (shape K).numChildren ^ l := by
    have := h.lt
    rwa [branching_eq] at this
  have start : level (root : K) = 0 := KuhnRoot.level_root
  have down : Descends (root : K) l (i % (shape K).numChildren ^ l) e := by
    rw [Nat.mod_eq_of_lt inside, ← KuhnElement.root_eq]
    exact h
  have walk := descend_eq (KuhnElement.root_eq (K := K) ▸ root_valid)
    (by rw [start, Nat.zero_add]) down
  rw [start] at walk
  have inside' : i < (shape K).numChildren.pow l := inside
  rw [ofLinearId, require_of_true (level_le_of_descends h), ok_bind, require_of_true inside',
    ok_bind, walk]

instance : LawfulNumbering K where
  valid_root := root_valid
  level_root := root_level
  isInsideRoot_child {p c i} hp h := by
    rw [KuhnElement.child_eq] at h
    exact isInsideRoot_child ((KuhnElement.valid_iff p).mp hp) h
  isInsideRoot_of_level_zero {r} hr hl := by
    rw [KuhnElement.level_eq] at hl
    rw [KuhnElement.root_eq]
    exact isInsideRoot_of_level_zero ((KuhnElement.valid_iff r).mp hr) (Except.ok.inj hl)
  linearId_of_descends {e l i target} h ht := by
    rw [finest_eq] at ht
    rw [KuhnElement.linearId_eq, branching_eq]
    rw [KuhnElement.root_eq] at h
    exact linearId_eq valid_root KuhnRoot.level_root h ht
  ofLinearId_of_descends h := by
    rw [KuhnElement.ofLinearId_eq]
    exact ofLinearId_eq h

/-! ## Succession -/

theorem carry_of_turn {s : K} {n m q j : Nat} (turn : Turn (branching K) target n m q j)
    (h : Descends (Element.root : K) target n s)
    (same : ∀ m ≤ target, cubeOf e m = cubeOf s m) :
    ∃ p, Descends (Element.root : K) m q p ∧ Below p s ∧
      carry e target (type s) = .ok (m + 1, type p, j) := by
  induction turn generalizing s with
  | @stay m q j hj =>
      obtain ⟨p, hp, hs⟩ := (descends_child_iff (Nat.lt_of_succ_lt hj)).mp h
      have step := carry_step (e := e) (valid_of_descends hp) (KuhnElement.child_eq (K := K) ▸ hs)
      rw [level_of_descends hp, if_pos (branching_eq (K := K) ▸ hj.ne)] at step
      exact ⟨p, hp, ⟨1, j, .single (Nat.lt_of_succ_lt hj) hs⟩, step same⟩
  | @carry t n m q j turn ih =>
      have last : branching K - 1 < branching K := Nat.sub_lt (branching_pos K) Nat.one_pos
      obtain ⟨d, hd, hs⟩ := (descends_child_iff last).mp h
      have down := KuhnElement.child_eq (K := K) ▸ hs
      have step := carry_step (e := e) (valid_of_descends hd) down
      obtain ⟨_, _, _, coarser⟩ := link_of_child (valid_of_descends hd) down
      rw [level_of_descends hd] at step coarser
      obtain ⟨p, hp, hpd, rest⟩ := ih hd fun m hm =>
        (same m (by omega)).trans (coarser m hm).symm
      refine ⟨p, hp, hpd.trans ⟨1, _, .single last hs⟩, ?_⟩
      rw [step same, if_neg, rest]
      have := branching_pos K
      rw [← branching_eq]
      omega

theorem carry_of_last {s : K} {n : Nat} (last : n + 1 = branching K ^ target)
    (h : Descends (Element.root : K) target n s)
    (same : ∀ m ≤ target, cubeOf e m = cubeOf s m) :
    carry e target (type s) = .error .contract := by
  induction h with
  | here => rfl
  | @child d c l i j h hj hc ih =>
      have down := KuhnElement.child_eq (K := K) ▸ hc
      have step := carry_step (e := e) (valid_of_descends h) down
      obtain ⟨_, _, _, coarser⟩ := link_of_child (valid_of_descends h) down
      rw [level_of_descends h] at step coarser
      obtain ⟨full, rest⟩ := digits_of_last hj last
      rw [step same, if_neg (not_not.mpr (branching_eq (K := K) ▸ full))]
      exact ih rest fun m hm => (same m (by omega)).trans (coarser m hm).symm

theorem exists_start (h : Descends (Element.root : K) l i e) (ht : target ≤ depth K) :
    ∃ s, Descends (Element.root : K) target (idAt (branching K) l i target) s ∧
      Start e target s := by
  obtain ⟨s, hs, up, down⟩ := h.exists_idAt (finest_eq (K := K) ▸ ht)
  have level := level_of_descends h
  exact ⟨s, hs, start_of_level ht (level ▸ up) (level ▸ down)⟩

/-- From the turn the way leads to the next child and on along first children. -/
theorem exists_successor {s : K} {n m q j : Nat} (turn : Turn (branching K) target n m q j)
    (h1 : 1 ≤ target) (ht : target ≤ depth K) (hs : Descends (Element.root : K) target n s)
    (start : Start e target s) :
    ∃ d, successor e target = .ok d ∧ Descends (Element.root : K) target (n + 1) d := by
  obtain ⟨p, hp, hps, stop⟩ := carry_of_turn turn hs fun _ _ => rfl
  have level := level_of_descends hp
  have hlt := turn.level_lt
  obtain ⟨c, hc, _⟩ := child_of_valid (hp.valid root_valid) (KuhnElement.level_eq p)
    (by rw [finest_eq]; omega) turn.digit_lt
  have next := hp.child turn.digit_lt hc
  have levelC := level_of_descends next
  have first := descends_first (valid_of_descends next) (k := target - (m + 1)) (by omega)
  have whole := next.trans first
  rw [Nat.add_sub_cancel' hlt, Nat.add_zero, ← turn.succ_eq (branching_pos K), levelC,
    Nat.add_sub_cancel' hlt] at whole
  rw [KuhnElement.child_eq] at hc
  rw [← level] at stop
  exact ⟨_, successor_of_turn h1 ht start (hp.valid root_valid) hps stop hc, whole⟩

instance : LawfulCurve K where
  successor_of_descends {e l i target} h h1 ht := by
    rw [finest_eq] at ht
    obtain ⟨s, hs, start⟩ := exists_start h ht
    unfold SuccessorLaw
    rw [KuhnElement.successor_eq]
    split
    · next last =>
        exact successor_of_stuck h1 ht start (carry_of_last last hs fun _ _ => rfl)
    · next more =>
        obtain ⟨m, q, j, turn⟩ := (last_or_turn hs.lt).resolve_left more
        exact exists_successor turn h1 ht hs start

end

end MeshCurve.Kuhn
