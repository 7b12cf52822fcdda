import MeshCurve.Proofs.Leaves.Complete

/-!
# Uniform leaves

The walk from the first element of a level along its successors meets the elements in the
order of their numbers, and all of them.  Leaves of one level that tile the root are
therefore the uniform ones.
-/

namespace MeshCurve.Leaves

open Element

variable {E : Type} [Element E]

theorem Consecutive.tiled {l : Nat} {leaves : List E} (h : Consecutive l 0 leaves)
    (hl : l ≤ finest E) (all : leaves.length = branching E ^ l) :
    Tiled 0 (branching E ^ finest E) leaves := by
  have tiled := tiled_of_consecutive h
  have whole := pow_mul_span (E := E) (l := 0) (k := l) (by omega)
  rw [Nat.zero_add, span_zero] at whole
  rwa [Nat.zero_mul, Nat.zero_add, all, whole] at tiled

theorem Consecutive.eq {l q : Nat} {es ds : List E} (h : Consecutive l q es)
    (h' : Consecutive l q ds) (lengths : es.length = ds.length) : es = ds := by
  apply List.ext_getElem lengths
  intro j hj hj'
  obtain ⟨e, he, down⟩ := h j hj
  obtain ⟨d, hd, down'⟩ := h' j hj'
  obtain rfl := down.unique down'
  exact Option.some.inj ((List.getElem?_eq_getElem hj).symm.trans
    (he.trans (hd.symm.trans (List.getElem?_eq_getElem hj'))))

/-! ## Leaves of one level -/

/-- All elements of a level inside the root, each at the place of its number. -/
structure IsUniform (l : Nat) (leaves : Leaves E) : Prop where
  size : leaves.size = branching E ^ l
  entry : ∀ i < branching E ^ l, ∃ e, leaves.toList[i]? = some e ∧ ofLinearId l i = .ok e
  sorted : leaves.isSorted = .ok true
  complete : leaves.isComplete = .ok true

/-- All elements of a level fit into one array. -/
def HasRoom (E : Type) [Element E] (l : Nat) : Prop :=
  branching E ^ l * (shape E).recordBytes < 0x8000000000000000

instance (l : Nat) : Decidable (HasRoom E l) := inferInstanceAs (Decidable (_ < _))

theorem reserve_of_hasRoom {l : Nat} (h : HasRoom E l) :
    reserve (branching E ^ l) (shape E).recordBytes = .ok () := reserve_eq_ok_iff.mpr h

theorem uniform_of_not_hasRoom {l : Nat} (hl : l ≤ finest E) (h : ¬ HasRoom E l) :
    (uniform l : Except Fault (Leaves E)) = .error .range := by
  have fine : l ≤ (shape E).maxLevel := hl
  have count : Radix.pow (shape E).numChildren l = .ok (branching E ^ l) := pow_eq_ok hl
  have none : reserve (branching E ^ l) (shape E).recordBytes = .error .range := if_neg h
  rw [uniform, require_of_true fine, ok_bind, count, ok_bind, none, error_bind]

/-- Leaves of one level that tile the root. -/
structure TiledAt (l : Nat) (leaves : Leaves E) : Prop where
  tiled : Tiled 0 (branching E ^ finest E) leaves.toList
  level : ∀ e ∈ leaves.toList, level e = .ok l

section

variable [LawfulNumbering E] {l : Nat}

theorem Consecutive.level {q : Nat} {es : List E} (h : Consecutive l q es) :
    ∀ e ∈ es, level e = .ok l := by
  intro e he
  obtain ⟨j, hj, rfl⟩ := List.getElem_of_mem he
  obtain ⟨d, hd, down⟩ := h j hj
  cases (List.getElem?_eq_getElem hj).symm.trans hd
  exact down.level_of_root

theorem Tiled.consecutive {q hi : Nat} {es : List E} (h : Tiled (q * span E l) hi es)
    (same : ∀ e ∈ es, level e = .ok l) :
    Consecutive l q es ∧ hi = (q + es.length) * span E l := by
  induction es generalizing q with
  | nil => exact ⟨fun j hj => absurd hj (Nat.not_lt_zero j), (tiled_nil_iff.mp h).symm⟩
  | cons e es ih =>
      obtain ⟨first, later⟩ := List.forall_mem_cons.mp same
      generalize start : q * span E l = lo at h
      cases h with
      | cons he h =>
          obtain ⟨k, i, down, rfl, rfl⟩ := he
          cases first.symm.trans down.level_of_root
          obtain rfl := Nat.eq_of_mul_eq_mul_right (span_pos l) start
          obtain ⟨behind, stop⟩ := ih h later
          refine ⟨consecutive_cons_iff.mpr ⟨down, behind⟩, ?_⟩
          rw [stop, List.length_cons, Nat.add_assoc, Nat.add_comm 1]

variable {leaves leaves' : Leaves E}

theorem Consecutive.tiledAt {es : List E} (h : Consecutive l 0 es) (hl : l ≤ finest E)
    (all : es.length = branching E ^ l) : TiledAt l ⟨es⟩ :=
  ⟨h.tiled hl all, h.level⟩

theorem TiledAt.valid (h : TiledAt l leaves) : ∀ e ∈ leaves.toList, Valid e :=
  fun e he => (h.tiled.laid.inRoot e he).1

theorem TiledAt.le_finest (h : TiledAt l leaves) : l ≤ finest E := by
  obtain ⟨e, he⟩ := List.exists_mem_of_ne_nil _ h.tiled.ne_nil
  obtain ⟨k, i, down⟩ := inRoot_iff.mp (h.tiled.laid.inRoot e he)
  cases (h.level e he).symm.trans down.level_of_root
  exact down.le_finest

theorem TiledAt.consecutive (h : TiledAt l leaves) :
    Consecutive l 0 leaves.toList ∧ leaves.size = branching E ^ l := by
  have tiled := h.tiled
  rw [← Nat.zero_mul (span E l)] at tiled
  obtain ⟨consecutive, stop⟩ := tiled.consecutive h.level
  have whole := pow_mul_span (E := E) (l := 0) (k := l) (by simpa using h.le_finest)
  rw [Nat.zero_add, span_zero, stop, Nat.zero_add] at whole
  exact ⟨consecutive, (Nat.eq_of_mul_eq_mul_right (span_pos l) whole).symm⟩

theorem TiledAt.unique (h : TiledAt l leaves) (h' : TiledAt l leaves') : leaves = leaves' := by
  obtain ⟨consecutive, size⟩ := h.consecutive
  obtain ⟨consecutive', size'⟩ := h'.consecutive
  exact congrArg Leaves.mk (consecutive.eq consecutive' (size.trans size'.symm))

theorem TiledAt.isUniform (h : TiledAt l leaves) : IsUniform l leaves := by
  obtain ⟨consecutive, size⟩ := h.consecutive
  refine ⟨size, ?_, h.tiled.laid.sorted,
    (isComplete_of_inRoot h.tiled.laid.inRoot).eq_true h.tiled⟩
  intro i hi
  obtain ⟨e, he, down⟩ := consecutive i (hi.trans_eq size.symm)
  rw [Nat.zero_add] at down
  exact ⟨e, he, ofLinearId_of_descends down⟩

end

/-! ## The walk -/

variable [LawfulCurve E] {l : Nat}

theorem exists_walk (hl : l ≤ finest E) (steps : Nat) {q : Nat} {e : E}
    (he : Descends root l q e) (room : q + steps < branching E ^ l) (walked : Array E) :
    ∃ es, walkFrom l steps e walked = .ok (walked ++ es.toArray) ∧ es.length = steps + 1 ∧
      Consecutive l q es := by
  induction steps generalizing q e walked with
  | zero =>
      refine ⟨[e], by simp [walkFrom, pure_eq_ok], rfl, ?_⟩
      exact consecutive_cons_iff.mpr ⟨he, fun j hj => absurd hj (Nat.not_lt_zero j)⟩
  | succ steps ih =>
      have positive : 1 ≤ l := by
        by_contra coarsest
        obtain rfl : l = 0 := by omega
        rw [pow_zero] at room
        omega
      have law := successor_of_descends he positive hl
      rw [SuccessorLaw, idAt_self, if_neg (by omega)] at law
      obtain ⟨d, next, hd⟩ := law
      obtain ⟨es, walk, length, consecutive⟩ := ih hd (by omega) (walked.push e)
      refine ⟨e :: es, ?_, by rw [List.length_cons, length], ?_⟩
      · rw [walkFrom, next, ok_bind, walk]
        simp
      · exact consecutive_cons_iff.mpr ⟨he, consecutive⟩

/-- From the first element of a level the walk meets all of them, and no step fails. -/
theorem exists_whole_walk (hl : l ≤ finest E) :
    ∃ (first : E) (walked : Array E), firstDescendant root l = .ok first ∧
      walkFrom l (branching E ^ l - 1) first #[] = .ok walked ∧ TiledAt l ⟨walked.toList⟩ := by
  have some' : 0 < branching E ^ l := Nat.pow_pos (branching_pos E)
  obtain ⟨first, down, hf⟩ :=
    firstDescendant_of_valid (valid_root (E := E)) level_root (Nat.zero_le l) hl
  rw [Nat.sub_zero] at hf
  obtain ⟨es, walk, length, consecutive⟩ :=
    exists_walk hl (branching E ^ l - 1) hf (by omega) #[]
  rw [Nat.sub_add_cancel some'] at length
  exact ⟨first, es.toArray, down, by simpa using walk, consecutive.tiledAt hl length⟩

omit [LawfulCurve E] in
theorem uniform_of_walk (hl : l ≤ finest E) (room : HasRoom E l) {first : E} {walked : Array E}
    (down : firstDescendant root l = .ok first)
    (walk : walkFrom l (branching E ^ l - 1) first #[] = .ok walked) :
    uniform l = .ok (⟨walked.toList⟩ : Leaves E) := by
  have fine : l ≤ (shape E).maxLevel := hl
  have count : Radix.pow (shape E).numChildren l = .ok (branching E ^ l) := pow_eq_ok hl
  rw [uniform, require_of_true fine, ok_bind, count, ok_bind, reserve_of_hasRoom room, ok_bind,
    down, ok_bind, walk, ok_bind, pure_eq_ok]

theorem exists_uniform (hl : l ≤ finest E) (room : HasRoom E l) :
    ∃ leaves : Leaves E, uniform l = .ok leaves ∧ TiledAt l leaves := by
  obtain ⟨first, walked, down, walk, tiledAt⟩ := exists_whole_walk (E := E) hl
  exact ⟨_, uniform_of_walk hl room down walk, tiledAt⟩

/-- Leaves of one level that tile the root are the uniform ones. -/
theorem TiledAt.uniform_eq {leaves : Leaves E} (h : TiledAt l leaves) (room : HasRoom E l) :
    uniform l = .ok leaves := by
  obtain ⟨leaves', made, h'⟩ := exists_uniform h.le_finest room
  rw [made, h'.unique h]

end MeshCurve.Leaves
