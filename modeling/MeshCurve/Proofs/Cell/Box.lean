import MeshCurve.Proofs.Cell.Anchor
import MeshCurve.Proofs.Curve
import MeshCurve.Proofs.Digit.Morton

/-!
# Boxes

A box is a product of intervals, one for each axis: its anchor and its level are all there is
to it.  Refining halves it along every axis, so that the children are the cubes at its digit of
the next level, the descendants are the boxes with the digits of their ancestor, and the number
of a box is the Morton number of its anchor.
-/

namespace MeshCurve

open Element

class Box (B : Type) extends Anchored B where
  level : B → Nat
  /-- the box of a level with an anchor made from the coordinates of another -/
  place : (f : (axis : Nat) → Int → Int) → (level : Nat) → B → B

namespace Box

variable {B : Type} [Element B] [Box B]

/-- Child `i` of a box. -/
def cell (e : B) (i : Nat) : B :=
  place (fun axis c => Coord.setBit c (pos B (level e + 1)) (i >>> axis % 2)) (level e + 1) e

/-- The box around another one that has its digit of the level cleared. -/
def cleared (e : B) : B :=
  place (fun _ c => Coord.setBit c (pos B (level e)) 0) (level e - 1) e

end Box

open Box (cell cleared)

/-- What a shape has to prove about its boxes and the steps between them. -/
class LawfulBox (B : Type) [Element B] [Box B] : Prop where
  ext {a b : B} : anchor a = anchor b → Box.level a = Box.level b → a = b
  dimension_eq (e : B) : (anchor e).length = (shape B).dimension
  anchor_place (f : Nat → Int → Int) (l : Nat) (e : B) :
    anchor (Box.place f l e) = (anchor e).mapIdx f
  level_place (f : Nat → Int → Int) (l : Nat) (e : B) : Box.level (Box.place f l e) = l
  level_eq (e : B) : Element.level e = .ok (Box.level e)
  valid_iff {e : B} : Valid e ↔
    Box.level e ≤ finest B ∧ ∀ c ∈ anchor e, Coord.Aligned c (pos B (Box.level e))
  bounds_of_child {e c : B} {i : Nat} : child e i = .ok c →
    Box.level e < finest B ∧ i < branching B
  child_eq {e : B} {i : Nat} : Box.level e < finest B → i < branching B →
    child e i = .ok (cell e i)
  pos_of_parent {e p : B} : parent e = .ok p → 0 < Box.level e
  parent_eq {e : B} : 0 < Box.level e → Box.level e ≤ finest B → parent e = .ok (cleared e)
  childId_eq {e : B} : 0 < Box.level e → Box.level e ≤ finest B →
    childId e = .ok (Coord.cubeAt (anchor e) (pos B (Box.level e)))
  ancestor_eq (e : B) (target : Nat) : ancestor e target = (do
    require (target ≤ Box.level e)
    climb parent (Box.level e - target) e)
  firstDescendant_eq (e : B) (target : Nat) : firstDescendant e target = (do
    require (Box.level e ≤ target ∧ target ≤ finest B)
    return Box.place (fun _ c => c) target e)

namespace Box

export LawfulBox (dimension_eq anchor_place level_place valid_iff child_eq pos_of_parent parent_eq
  childId_eq ancestor_eq firstDescendant_eq)

attribute [simp] LawfulBox.anchor_place LawfulBox.level_place LawfulBox.level_eq

variable {B : Type} [Element B] [Box B] [LawfulBox B] {e r : B} {i k l target : Nat}

theorem branching_eq (e : B) : branching B = 2 ^ (anchor e).length := by
  rw [branching, Shape.numChildren_eq_shiftLeft, Nat.one_shiftLeft, dimension_eq]

theorem level_eq_ok_iff : Element.level e = .ok l ↔ level e = l := by
  rw [LawfulBox.level_eq, Except.ok.injEq]

/-! ## Going up and down -/

@[simp] theorem anchor_cell (e : B) (i : Nat) :
    anchor (cell e i) = Coord.stamp i (pos B (level e + 1)) (anchor e) := anchor_place _ _ e

@[simp] theorem level_cell (e : B) (i : Nat) : level (cell e i) = level e + 1 := level_place _ _ e

@[simp] theorem anchor_cleared (e : B) :
    anchor (cleared e) = Coord.stamp 0 (pos B (level e)) (anchor e) := by
  rw [cleared, anchor_place, mapIdx_eq_map, Coord.stamp_zero]

@[simp] theorem level_cleared (e : B) : level (cleared e) = level e - 1 := level_place _ _ e

theorem aligned (he : Valid e) : ∀ c ∈ anchor e, Coord.Aligned c (pos B (level e)) :=
  (valid_iff.mp he).2

theorem aligned_succ (he : Valid e) (hl : level e < finest B) :
    ∀ c ∈ anchor e, Coord.Aligned c (pos B (level e + 1) + 1) := pos_eq_succ hl ▸ aligned he

theorem valid_cell (he : Valid e) (hl : level e < finest B) (i : Nat) : Valid (cell e i) := by
  rw [valid_iff, level_cell, anchor_cell]
  exact ⟨hl, Coord.forall_mem_stamp fun c hc b hb =>
    (aligned_succ he hl c hc).setBit_fine (pos_lt B _) hb⟩

theorem cleared_cell (he : Valid e) (hl : level e < finest B) (i : Nat) :
    cleared (cell e i) = e := by
  refine LawfulBox.ext ?_ (by simp)
  rw [anchor_cleared, anchor_cell, level_cell, Coord.stamp_stamp (pos_lt B _),
    Coord.stamp_zero_of_aligned (aligned_succ he hl)]

theorem exists_child (he : Valid e) (hl : level e < finest B) (hi : i < branching B) :
    ∃ c, child e i = .ok c ∧ Valid c ∧ parent c = .ok e ∧ childId c = .ok i := by
  have fine : level (cell e i) ≤ finest B := (level_cell e i).trans_le hl
  have positive : 0 < level (cell e i) := (level_cell e i).symm ▸ Nat.succ_pos _
  refine ⟨_, child_eq hl hi, valid_cell he hl i, ?_, ?_⟩
  · rw [parent_eq positive fine, cleared_cell he hl]
  · rw [childId_eq positive fine, anchor_cell, level_cell, Coord.cubeAt_stamp (pos_lt B _),
      ← branching_eq, Nat.mod_eq_of_lt hi]

theorem valid_cleared (he : Valid e) (h0 : 0 < level e) : Valid (cleared e) := by
  have fits := (valid_iff.mp he).1
  have up : pos B (level e - 1) = pos B (level e) + 1 := by
    rw [pos_eq_succ (by omega), Nat.sub_add_cancel h0]
  rw [valid_iff, level_cleared, anchor_cleared, Coord.stamp_zero, up, List.forall_mem_map]
  exact ⟨(Nat.sub_le _ 1).trans fits, fun c hc => (aligned he c hc).setBit_zero (pos_lt B _)⟩

theorem cell_cleared (h0 : 0 < level e) :
    cell (cleared e) (Coord.cubeAt (anchor e) (pos B (level e))) = e := by
  refine LawfulBox.ext ?_ ?_
  · rw [anchor_cell, level_cleared, anchor_cleared, Nat.sub_add_cancel h0,
      Coord.stamp_stamp (pos_lt B _), Coord.stamp_cubeAt]
  · rw [level_cell, level_cleared, Nat.sub_add_cancel h0]

theorem exists_parent (he : Valid e) (h0 : 0 < level e) :
    ∃ p i, i < branching B ∧ parent e = .ok p ∧ childId e = .ok i ∧ Valid p ∧
      child p i = .ok e := by
  have fits := (valid_iff.mp he).1
  have digit : Coord.cubeAt (anchor e) (pos B (level e)) < branching B :=
    (Coord.cubeAt_lt _ _).trans_eq (branching_eq e).symm
  refine ⟨_, _, digit, parent_eq h0 fits, childId_eq h0 fits, valid_cleared he h0, ?_⟩
  rw [child_eq (by rw [level_cleared]; omega) digit, cell_cleared h0]

instance : LawfulForest B where
  level_of_valid {e} he := ⟨level e, (valid_iff.mp he).1, LawfulBox.level_eq e⟩
  bounds_of_child h hl := by
    rw [level_eq_ok_iff] at hl
    exact hl ▸ LawfulBox.bounds_of_child h
  child_of_valid he hl hlt hi := by
    rw [level_eq_ok_iff] at hl
    exact exists_child he (hl ▸ hlt) hi
  parent_of_valid he hl := by
    rw [level_eq_ok_iff] at hl
    exact exists_parent he (hl ▸ Nat.succ_pos _)

instance : LawfulAnchored B where
  length_anchor := dimension_eq
  aligned_of_valid he hl := by
    rw [level_eq_ok_iff] at hl
    exact hl ▸ aligned he
  anchor_child {e c l i} _ hl hc := by
    rw [level_eq_ok_iff] at hl
    obtain ⟨hlt, hi⟩ := LawfulBox.bounds_of_child hc
    cases (child_eq hlt hi).symm.trans hc
    exact ⟨i, hl ▸ anchor_cell e i⟩

theorem descends_first (he : Valid e) (hk : level e + k ≤ finest B) :
    Descends e k 0 (place (fun _ c => c) (level e + k) e) := by
  induction k with
  | zero =>
      have self : place (fun _ c => c) (level e + 0) e = e :=
        LawfulBox.ext (by simp [mapIdx_eq_map]) (by simp)
      rw [self]
      exact .here
  | succ k ih =>
      have first := ih (by omega)
      have hlt : level (place (fun _ c => c) (level e + k) e) < finest B := by
        rw [level_place]
        omega
      have next := child_eq hlt (branching_pos B)
      have fine := aligned_succ (first.valid he) hlt
      have same : cell (place (fun _ c => c) (level e + k) e) 0 =
          place (fun _ c => c) (level e + (k + 1)) e := by
        refine LawfulBox.ext ?_ (by simp [Nat.add_assoc])
        rw [anchor_cell, Coord.stamp_zero_of_aligned fine, anchor_place, anchor_place]
      exact .child first (branching_pos B) (same ▸ next)

/-! ## Numbers -/

theorem level_of_descends (top : level r = 0) (h : Descends r l i e) : level e = l := by
  have levels := h.level (level_eq_ok_iff.mpr top)
  rwa [level_eq_ok_iff, Nat.zero_add] at levels

/-- The cubes of the anchor are the digits of the number below a box of the coarsest level. -/
theorem number_of_descends (top : level r = 0) (h : Descends r l i e) :
    Morton.number (anchor e) (finest B) l = i := by
  induction h with
  | here => rfl
  | @child d c l i j h hj hc ih =>
      have level := level_of_descends top h
      obtain ⟨hlt, _⟩ := LawfulBox.bounds_of_child hc
      cases (child_eq hlt hj).symm.trans hc
      have place : finest B - (l + 1) < finest B - l := by omega
      rw [Morton.number, anchor_cell, level, Morton.number_stamp (finest_le B) place, ih,
        Coord.cubeAt_stamp (pos_lt B _), Coord.length_stamp, ← branching_eq, Nat.mod_eq_of_lt hj]

theorem number_eq_idAt (hr : Valid r) (top : level r = 0) (h : Descends r l i e)
    (ht : target ≤ finest B) :
    Morton.number (anchor e) (finest B) target = idAt (branching B) l i target := by
  have own := number_of_descends top h
  have level := level_of_descends top h
  rcases Nat.le_total target l with hle | hge
  · obtain ⟨k, rfl⟩ := Nat.exists_eq_add_of_le hle
    rw [idAt_of_le hle, Nat.add_sub_cancel_left, ← own, branching_eq e, Morton.number_div]
  · obtain ⟨k, rfl⟩ := Nat.exists_eq_add_of_le hge
    rw [idAt_of_ge hge, Nat.add_sub_cancel_left, ← own, branching_eq e,
      Morton.number_mul ht (level ▸ aligned (h.valid hr))]

end Box

/-! ## The curve -/

/-- What a shape of boxes has to prove about its root, its families and its ids. -/
class BoxCurve (B : Type) [Element B] [Box B] : Prop where
  isFamily_decides {family : List B} : (∀ e ∈ family, Valid e) →
    Decides (isFamily family) (∃ p, Valid p ∧ children p = .ok family)
  anchor_root : anchor (root : B) = List.replicate (shape B).dimension 0
  level_root : Box.level (root : B) = 0
  isInsideRoot_decides (e : B) :
    Decides (isInsideRoot e) (∀ c ∈ anchor e, 0 ≤ c ∧ c < 2 ^ finest B)
  linearId_eq {e : B} {target : Nat} : Valid e → (∀ c ∈ anchor e, 0 ≤ c ∧ c < 2 ^ finest B) →
    target ≤ finest B →
      linearId e target = .ok (Morton.number (anchor e) (finest B) target)
  ofLinearId_eq {l i : Nat} : l ≤ finest B → i < branching B ^ l →
    ∃ e : B, ofLinearId l i = .ok e ∧ Box.level e = l ∧
      anchor e = Morton.anchorOf (shape B).dimension (finest B) l i
  /-- There is no id to decode outside these bounds. -/
  ofLinearId_of_not {l i : Nat} : ¬ (l ≤ finest B ∧ i < branching B ^ l) →
    (ofLinearId l i : Except Fault B) = .error .contract
  successor_eq (e : B) (target : Nat) : successor e target = (do
    require (1 ≤ target)
    let id ← linearId e target
    ofLinearId target (id + 1))

namespace Box

export BoxCurve (isFamily_decides anchor_root level_root isInsideRoot_decides linearId_eq
  ofLinearId_eq ofLinearId_of_not successor_eq)

variable {B : Type} [Element B] [Box B] [LawfulBox B] [BoxCurve B] {e r : B} {i l target : Nat}

theorem valid_root : Valid (root : B) := by
  rw [valid_iff, level_root, anchor_root]
  refine ⟨Nat.zero_le _, fun c hc => ?_⟩
  exact List.eq_of_mem_replicate hc ▸ Coord.aligned_zero _

/-- Of the boxes of the coarsest level the root alone starts in its cube. -/
theorem within_iff_eq_root (hr : Valid r) (top : level r = 0) :
    (∀ c ∈ anchor r, 0 ≤ c ∧ c < 2 ^ finest B) ↔ r = root := by
  constructor
  · intro within
    refine LawfulBox.ext ?_ (top.trans level_root.symm)
    rw [anchor_root]
    refine List.eq_replicate_iff.mpr ⟨dimension_eq r, fun c hc => ?_⟩
    have start := (Coord.div_eq_zero_iff c (finest B)).mpr (within c hc)
    have whole := (aligned hr c hc).eq_mul
    rwa [top, pos, Nat.sub_zero, start, Int.zero_mul] at whole
  · rintro rfl c hc
    rw [anchor_root] at hc
    obtain rfl := List.eq_of_mem_replicate hc
    exact ⟨le_rfl, Coord.two_pow_pos _⟩

theorem within_of_descends (h : Descends root l i e) :
    ∀ c ∈ anchor e, 0 ≤ c ∧ c < 2 ^ finest B := by
  induction h with
  | here => exact (within_iff_eq_root valid_root level_root).mpr rfl
  | child h _ hc ih => exact (within_child_iff (h.valid valid_root) hc).mpr ih

theorem level_le_of_descends (h : Descends (root : B) l i e) : l ≤ finest B :=
  level_of_descends level_root h ▸ (valid_iff.mp (h.valid valid_root)).1

theorem ofLinearId_of_descends (h : Descends root l i e) : ofLinearId l i = .ok e := by
  have fits := level_le_of_descends h
  have level := level_of_descends level_root h
  obtain ⟨d, decoded, level', digits⟩ := ofLinearId_eq (B := B) fits h.lt
  have own : anchor e = Morton.anchorOf (shape B).dimension (finest B) l i := by
    rw [← number_of_descends level_root h, ← dimension_eq e,
      Morton.anchorOf_number (finest_le B) fits (within_of_descends h)]
    exact (Coord.map_clearBelow_of_aligned (level ▸ aligned (h.valid valid_root))).symm
  rw [decoded, LawfulBox.ext (digits.trans own.symm) (level'.trans level.symm)]

instance : LawfulNavigation B where
  ancestor_of_valid {e l target} _ hl ht := by
    rw [level_eq_ok_iff] at hl
    subst hl
    rw [ancestor_eq, require_of_true ht, ok_bind]
  firstDescendant_of_valid {e l target} he hl hle ht := by
    rw [level_eq_ok_iff] at hl
    subst hl
    obtain ⟨k, rfl⟩ := Nat.exists_eq_add_of_le hle
    refine ⟨place (fun _ c => c) (level e + k) e, ?_, ?_⟩
    · rw [firstDescendant_eq, require_of_true ⟨hle, ht⟩, ok_bind, pure_eq_ok]
    · rw [Nat.add_sub_cancel_left]
      exact descends_first he ht
  isFamily_of_valid := isFamily_decides

instance : LawfulNumbering B where
  valid_root := valid_root
  level_root := level_eq_ok_iff.mpr level_root
  isInsideRoot_child hp hc :=
    (isInsideRoot_decides _).eq_of_iff (isInsideRoot_decides _) (within_child_iff hp hc)
  isInsideRoot_of_level_zero hr hl :=
    (isInsideRoot_decides _).congr (within_iff_eq_root hr (level_eq_ok_iff.mp hl))
  linearId_of_descends h ht := by
    rw [linearId_eq (h.valid valid_root) (within_of_descends h) ht,
      number_eq_idAt valid_root level_root h ht]
  ofLinearId_of_descends := ofLinearId_of_descends

instance : LawfulCurve B where
  successor_of_descends {e l i target} h h1 ht := by
    refine successorLaw_of_decode h ht ?_ ?_
    · rw [successor_eq, require_of_true h1, ok_bind]
    · exact ofLinearId_of_not fun bounds => Nat.lt_irrefl _ bounds.2

end Box

end MeshCurve
