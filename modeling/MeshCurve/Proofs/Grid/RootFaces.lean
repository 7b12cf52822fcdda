import MeshCurve.Proofs.Cell.Tet
import MeshCurve.Proofs.Cell.Triangle
import MeshCurve.Proofs.Extent
import MeshCurve.Proofs.Grid.Corners

/-!
# The root faces of simplices

A face of a simplex lies on the plane of a root face if its vertices do.  No face lies
on two of these planes, and inside the root a face lies on one exactly if the neighbour
across it is outside.
-/

namespace MeshCurve

/-- The planes through the faces of the root of a simplex. -/
def Shape.OnRootPlane : Shape → (rootFace : Nat) → (p : Int × Int × Int) → Prop
  | triangle, 0, p => p.1 = Triangle.rootLen
  | triangle, 1, p => p.1 = p.2.1
  | triangle, 2, p => p.2.1 = 0
  | tet, 0, p => p.1 = Tet.rootLen
  | tet, 1, p => p.1 = p.2.2
  | tet, 2, p => p.2.1 = p.2.2
  | tet, 3, p => p.2.1 = 0
  | _, _, _ => False

theorem Shape.one_lt_numFaces (s : Shape) : 1 < s.numFaces := by
  cases s <;> decide

/-! ## Searching -/

theorem find?_range_eq_some_iff {n : Nat} {lies : Nat → Bool}
    (unique : ∀ r < n, ∀ r' < n, lies r → lies r' → r = r') {r : Nat} :
    (List.range n).find? lies = some r ↔ r < n ∧ lies r := by
  constructor
  · intro found
    exact ⟨List.mem_range.mp (List.mem_of_find?_eq_some found), List.find?_some found⟩
  · rintro ⟨hr, there⟩
    cases found : (List.range n).find? lies with
    | none => exact absurd there (List.find?_eq_none.mp found r (List.mem_range.mpr hr))
    | some r' =>
        have hr' := List.mem_range.mp (List.mem_of_find?_eq_some found)
        rw [unique r hr r' hr' there (List.find?_some found)]

theorem findM?_eq_ok {α ε : Type} {f : α → Except ε Bool} {g : α → Bool} {xs : List α}
    (h : ∀ x ∈ xs, f x = .ok (g x)) : xs.findM? f = .ok (xs.find? g) := by
  induction xs with
  | nil => rfl
  | cons x xs ih =>
      obtain ⟨head, tail⟩ := List.forall_mem_cons.mp h
      rw [List.findM?, head, ok_bind, List.find?_cons]
      cases g x with
      | true => rfl
      | false => exact ih tail

/-! ## Walls -/

namespace Element

/-- Where the root lies on a level on which it is `m` cells long. -/
class Walled (E : Type) [Grid E] where
  Holds : (m : Int) → Site (Corner E) → Prop
  /-- the linear form that on a face of the root is `m`, for face 0, or else zero -/
  normal : (rootFace : Nat) → Corner E → Int
  /-- the root face to which a face of a type is parallel -/
  parallel? : (type face : Nat) → Option Nat
  /-- the root face that is found for a face -/
  rootFace? : E → (face : Nat) → Except Fault (Option Nat)

export Walled (Holds normal parallel? rootFace?)

variable {E : Type} [Element E]

/-- All vertices of face `f` can be computed and lie on the plane of root face `r`. -/
def FaceOnPlane (e : E) (f r : Nat) : Prop :=
  ∀ v < (shape E).numVertices, v ≠ f →
    ∃ p, vertexCoords e v = .ok p ∧ (shape E).OnRootPlane r p

/-- Root face `r` is found for face `f`, and it is the only one whose plane holds it. -/
structure OnOneRootFace (e : E) (f r : Nat) : Prop where
  found : treeFace e f = .ok r
  lt : r < (shape E).numFaces
  onPlane_iff : ∀ r' < (shape E).numFaces, (FaceOnPlane e f r' ↔ r' = r)

section

variable [Grid E] [Cornered E] [Walled E]

/-- Whether face `f` of the cells of a type is parallel to root face `r`. -/
def Parallel (E : Type) [Element E] [Grid E] [Cornered E] [Walled E] (t f r : Nat) : Prop :=
  ∀ v < (shape E).numFaces, v ≠ f → ∀ w < (shape E).numFaces, w ≠ f →
    normal r (vertexOf (E := E) t v) = normal r (vertexOf (E := E) t w)

instance (t f r : Nat) : Decidable (Parallel E t f r) :=
  inferInstanceAs (Decidable (∀ v < _, v ≠ f → ∀ w < _, w ≠ f → _))

/-- Whether face `f` of the cell at a site lies on root face `r`. -/
def Lies (m : Int) (q : Site (Corner E)) (f r : Nat) : Prop :=
  ∀ v < (shape E).numFaces, v ≠ f →
    normal r (q.corner + vertexOf (E := E) q.type v) = if r = 0 then m else 0

instance (m : Int) (q : Site (Corner E)) (f r : Nat) : Decidable (Lies m q f r) :=
  inferInstanceAs (Decidable (∀ v < _, v ≠ f → _))

/-- Whether the first vertex of face `f` lies on root face `r`. -/
def Touches (m : Int) (q : Site (Corner E)) (f r : Nat) : Prop :=
  normal r (q.corner + vertexOf (E := E) q.type (if f = 0 then 1 else 0)) = if r = 0 then m else 0

end

/-- What a simplex has to prove about the faces of its root. -/
class LawfulWalled (E : Type) [Element E] [Anchored E] [Grid E] [Axial (Corner E)] [Cornered E]
    [Walled E] : Prop extends LawfulCornered E where
  normal_add (r : Nat) (a b : Corner E) : normal r (a + b) = normal r a + normal r b
  parallel_iff : ∀ t < (shape E).numTypes, ∀ f < (shape E).numFaces, ∀ r < (shape E).numFaces,
    (Parallel E t f r ↔ parallel? E t f = some r)
  onRootPlane_point_iff {l r : Nat} {c : Corner E} : l ≤ finest E → r < (shape E).numFaces →
    ((shape E).OnRootPlane r (point (E := E) l c) ↔ normal r c = if r = 0 then 2 ^ l else 0)
  inRoot_iff_holds {e : E} {l : Nat} : Valid e → level e = .ok l →
    (InRoot e ↔ Holds (2 ^ l) (site e))
  touches_iff_not_holds {m : Int} {q : Site (Corner E)} {f : Nat} :
    q.type < (shape E).numTypes → f < (shape E).numFaces → Holds m q →
      ((∃ r < (shape E).numFaces, parallel? E q.type f = some r ∧ Touches m q f r) ↔
        ¬ Holds m ((pattern E).beyond q f).1)
  rootFace?_eq {e : E} {l f : Nat} : InRoot e → level e = .ok l → f < (shape E).numFaces →
    rootFace? e f = .ok ((List.range (shape E).numFaces).find? (Lies (2 ^ l) (site e) f ·))
  isRootBoundary_eq (e : E) (f : Nat) : isRootBoundary e f = (do
    let r ← rootFace? e f
    return r.isSome)
  treeFace_eq (e : E) (f : Nat) : treeFace e f = (do
    match ← rootFace? e f with
    | some r => return r
    | none => .error .contract)

export LawfulWalled (normal_add parallel_iff onRootPlane_point_iff inRoot_iff_holds
  touches_iff_not_holds rootFace?_eq isRootBoundary_eq treeFace_eq)

section

variable [Anchored E] [Grid E] [Axial (Corner E)] [Cornered E] [Walled E] [LawfulWalled E]
  {e n : E} {m : Int} {q : Site (Corner E)} {l f d r r' : Nat}

/-- A face lies on a root face if it is parallel to it and has a vertex on it. -/
theorem lies_iff_touches : Lies m q f r ↔ Parallel E q.type f r ∧ Touches m q f r := by
  have faces := (shape E).one_lt_numFaces
  have first : (if f = 0 then 1 else 0) < (shape E).numFaces ∧ (if f = 0 then 1 else 0) ≠ f := by
    split <;> omega
  constructor
  · intro h
    refine ⟨?_, h _ first.1 first.2⟩
    intro v hv off w hw off'
    have same := (h v hv off).trans (h w hw off').symm
    rwa [normal_add, normal_add, Int.add_right_inj] at same
  · rintro ⟨parallel, touches⟩ v hv off
    rw [normal_add, parallel v hv off _ first.1 first.2, ← normal_add]
    exact touches

theorem Lies.unique (ht : q.type < (shape E).numTypes) (hf : f < (shape E).numFaces)
    (hr : r < (shape E).numFaces) (hr' : r' < (shape E).numFaces) (h : Lies m q f r)
    (h' : Lies m q f r') : r = r' := by
  have one := (parallel_iff _ ht f hf r hr).mp (lies_iff_touches.mp h).1
  have two := (parallel_iff _ ht f hf r' hr').mp (lies_iff_touches.mp h').1
  exact Option.some.inj (one.symm.trans two)

theorem lies_iff_not_holds (ht : q.type < (shape E).numTypes) (hf : f < (shape E).numFaces)
    (h : Holds m q) :
    (∃ r < (shape E).numFaces, Lies m q f r) ↔ ¬ Holds m ((pattern E).beyond q f).1 := by
  rw [← touches_iff_not_holds ht hf h]
  refine exists_congr fun r => and_congr_right fun hr => ?_
  rw [lies_iff_touches, parallel_iff _ ht f hf r hr]

variable [LawfulNumbering E]

theorem faceOnPlane_iff_lies (he : InRoot e) (hl : level e = .ok l)
    (hr : r < (shape E).numFaces) : FaceOnPlane e f r ↔ Lies (2 ^ l) (site e) f r := by
  obtain ⟨_, fits, level⟩ := level_of_valid he.1
  cases hl.symm.trans level
  unfold FaceOnPlane
  rw [numVertices_eq (E := E)]
  refine forall_congr' fun v => forall_congr' fun hv => forall_congr' fun _ => ?_
  rw [← onRootPlane_point_iff fits hr]
  constructor
  · rintro ⟨p, hp, on⟩
    rwa [← ((vertexCoords_eq_ok_iff he.1 hl hv).mp hp).1]
  · intro on
    have fits := representable_of_near he.1 hl (near_of_inCube (inCube_of_inRoot he)) hv
    exact ⟨_, (vertexCoords_eq_ok_iff he.1 hl hv).mpr ⟨rfl, fits⟩, on⟩

theorem exists_rootFace (he : InRoot e) (hf : f < (shape E).numFaces) : ∃ found : Option Nat,
    isRootBoundary e f = .ok found.isSome ∧ (∀ r, treeFace e f = .ok r ↔ found = some r) ∧
      ∀ r, found = some r ↔ r < (shape E).numFaces ∧ FaceOnPlane e f r := by
  obtain ⟨l, _, hl⟩ := level_of_valid he.1
  have search := rootFace?_eq he hl hf
  refine ⟨(List.range (shape E).numFaces).find? (Lies (2 ^ l) (site e) f ·), ?_, fun r => ?_,
    fun r => ?_⟩
  · rw [isRootBoundary_eq, search, ok_bind, pure_eq_ok]
  · rw [treeFace_eq, search, ok_bind]
    cases (List.range (shape E).numFaces).find? (Lies (2 ^ l) (site e) f ·) with
    | none => simp
    | some r' => simp [pure_eq_ok]
  · rw [find?_range_eq_some_iff fun r hr r' hr' here there =>
      (of_decide_eq_true here).unique (type_lt he.1) hf hr hr' (of_decide_eq_true there)]
    refine and_congr_right fun hr => ?_
    rw [decide_eq_true_iff, faceOnPlane_iff_lies he hl hr]

theorem onOneRootFace_of_walled {boundary : Bool} (he : InRoot e) (hf : f < (shape E).numFaces)
    (test : isRootBoundary e f = .ok boundary) :
    (boundary = true → ∃ r, OnOneRootFace e f r) ∧
      (boundary = false → ∀ r < (shape E).numFaces, ¬ FaceOnPlane e f r) := by
  obtain ⟨found, test', tree, lies⟩ := exists_rootFace he hf
  obtain rfl := Except.ok.inj (test.symm.trans test')
  cases found with
  | none =>
      refine ⟨fun yes => by simp at yes, fun _ r hr on => ?_⟩
      simpa using (lies r).mpr ⟨hr, on⟩
  | some r =>
      refine ⟨fun _ => ⟨r, (tree r).mpr rfl, ((lies r).mp rfl).1, ?_⟩, fun no => by simp at no⟩
      intro r' hr'
      have iff := lies r'
      rw [Option.some.injEq] at iff
      exact ⟨fun on => (iff.mpr ⟨hr', on⟩).symm, fun same => (iff.mp same.symm).2⟩

theorem isRootBoundary_of_walled (he : InRoot e) (hf : f < (shape E).numFaces)
    (hn : faceNeighbor e f = .ok (n, d)) : Decides (isRootBoundary e f) (¬ InRoot n) := by
  obtain ⟨l, _, hl⟩ := level_of_valid he.1
  obtain ⟨found, test, _, lies⟩ := exists_rootFace he hf
  obtain ⟨validN, levelN, there⟩ := (faceNeighbor_eq_ok_iff he.1 hl hf).mp hn
  have siteN : site n = ((pattern E).beyond (site e) f).1 := congrArg Prod.fst there
  have outside := lies_iff_not_holds (type_lt he.1) hf ((inRoot_iff_holds he.1 hl).mp he)
  refine ⟨_, test, ?_⟩
  rw [inRoot_iff_holds validN levelN, siteN, ← outside, Option.isSome_iff_exists]
  refine exists_congr fun r => (lies r).trans (and_congr_right fun hr => ?_)
  exact faceOnPlane_iff_lies he hl hr

end

end Element

/-! ## Triangles -/

namespace Triangle

open Element

def normal : (rootFace : Nat) → (c : Int × Int) → Int
  | 0, c => c.1
  | 1, c => c.1 - c.2
  | _, c => c.2

instance : Walled Triangle where
  Holds m q := Inside q.type q.corner.1 q.corner.2 m
  normal := normal
  parallel? t f := some (if t = 0 then f else 2 - f)
  rootFace? := Triangle.rootFace?

variable {e n : Triangle} {t f v r d : Nat} {c : Int × Int} {m : Int}

theorem normal_add (r : Nat) (a b : Int × Int) : normal r (a + b) = normal r a + normal r b := by
  match r with
  | 0 | _ + 2 => rfl
  | 1 => exact add_sub_add_comm a.1 b.1 a.2 b.2

theorem parallel_iff : ∀ t < 2, ∀ f < 3, ∀ r < 3,
    (Parallel Triangle t f r ↔ parallel? Triangle t f = some r) := by
  decide +kernel

theorem lies_iff {q : Site (Int × Int)} : Lies (E := Triangle) m q f r ↔
    ∀ v < 3, v ≠ f → normal r (q.corner + offset q.type v) = if r = 0 then m else 0 := Iff.rfl

theorem touches_iff {q : Site (Int × Int)} : Touches (E := Triangle) m q f r ↔
    normal r (q.corner + offset q.type (if f = 0 then 1 else 0)) = if r = 0 then m else 0 := Iff.rfl

theorem touches_iff_not_holds {q : Site (Int × Int)} (ht : q.type < 2) (hf : f < 3)
    (inside : Holds (E := Triangle) m q) :
    (∃ r < 3, parallel? Triangle q.type f = some r ∧ Touches (E := Triangle) m q f r) ↔
      ¬ Holds (E := Triangle) m (layout.beyond q f).1 := by
  obtain ⟨t, x, y⟩ := q
  simp only [touches_iff]
  interval_cases t <;> interval_cases f <;>
    simp [Holds, Inside, parallel?, normal, offset, layout, Pattern.beyond, Site.shift]
      at inside ⊢ <;> omega

theorem vertex_of_inRoot (he : InRoot e) (hv : v < 3) : e.vertex v = .ok (e.corner v) := by
  have within := (isInsideRoot_within he.1).eq_true_iff.mp he.2
  exact vertex_of_within he.1 (within 0 (by decide)) hv

theorem onRootFace_iff (he : Kuhn.Valid e) (v r : Nat) : onRootFace (e.corner v) r ↔
    normal r (e.toSite.corner + offset e.type v) = if r = 0 then 2 ^ e.level else 0 := by
  have whole : rootLen = 2 ^ e.level * 2 ^ (depth - e.level) := Coord.two_pow_eq_mul he.1
  have scale := (Coord.two_pow_pos (depth - e.level)).ne'
  rw [corner_eq he]
  match r with
  | 0 | 1 | _ + 2 => simp [onRootFace, normal, toSite, whole, scale, sub_eq_zero]

theorem rootFace?_eq (he : InRoot e) (hf : f < 3) : e.rootFace? f =
    .ok ((List.range 3).find? (Lies (E := Triangle) (2 ^ e.level) e.toSite f ·)) := by
  have first := vertex_of_inRoot he (show (if f = 0 then 1 else 0) < 3 by split <;> omega)
  have second := vertex_of_inRoot he (show (if f = 2 then 1 else 2) < 3 by split <;> omega)
  have ends : ∀ r, (onRootFace (e.corner (if f = 0 then 1 else 0)) r &&
      onRootFace (e.corner (if f = 2 then 1 else 2)) r) =
        decide (Lies (E := Triangle) (2 ^ e.level) e.toSite f r) := by
    intro r
    rw [Bool.eq_iff_iff, Bool.and_eq_true, onRootFace_iff he.1, onRootFace_iff he.1,
      decide_eq_true_iff, lies_iff]
    simp only [Nat.forall_lt_succ_right]
    interval_cases f <;> simp [toSite]
  rw [rootFace?, require_of_true hf, ok_bind, faceEnds, first, ok_bind, second, ok_bind]
  simp only [pure_eq_ok, ok_bind, ends]

theorem onRootPlane_point_iff {l : Nat} (hl : l ≤ depth) (hr : r < 3) :
    Shape.triangle.OnRootPlane r (point (E := Triangle) l c) ↔
      normal r c = if r = 0 then 2 ^ l else 0 := by
  have whole : rootLen = 2 ^ l * 2 ^ (depth - l) := Coord.two_pow_eq_mul hl
  have scale := (Coord.two_pow_pos (depth - l)).ne'
  interval_cases r <;>
    simp [Shape.OnRootPlane, point, normal, whole, scale, sub_eq_zero]

instance : LawfulWalled Triangle where
  normal_add := normal_add
  parallel_iff := parallel_iff
  onRootPlane_point_iff := onRootPlane_point_iff
  inRoot_iff_holds {e l} he hl := by
    cases hl
    exact inRoot_iff_of_decides he (Kuhn.isInsideRoot_decides he)
  touches_iff_not_holds := touches_iff_not_holds
  rootFace?_eq {e l f} he hl hf := by
    cases hl
    exact rootFace?_eq he hf
  isRootBoundary_eq _ _ := rfl
  treeFace_eq _ _ := rfl

end Triangle

/-! ## Tetrahedra -/

namespace Tet

open Element

def normal : (rootFace : Nat) → (c : Int × Int × Int) → Int
  | 0, c => c.1
  | 1, c => c.1 - c.2.2
  | 2, c => c.2.1 - c.2.2
  | _, c => c.2.1

instance : Walled Tet where
  Holds m q := Inside q.type q.corner.1 q.corner.2.1 q.corner.2.2 m
  normal := normal
  parallel?
    | 0, f => some f
    | 1, 0 => some 0
    | 1, 2 => some 2
    | 2, 0 => some 3
    | 2, 2 => some 1
    | 3, f => some (3 - f)
    | 4, 1 => some 2
    | 4, 3 => some 0
    | 5, 1 => some 1
    | 5, 3 => some 3
    | _, _ => none
  rootFace? := Tet.rootFace?

variable {e n : Tet} {t f v r d : Nat} {c : Int × Int × Int} {m : Int}

theorem normal_add (r : Nat) (a b : Int × Int × Int) :
    normal r (a + b) = normal r a + normal r b := by
  match r with
  | 0 | _ + 3 => rfl
  | 1 => exact add_sub_add_comm a.1 b.1 a.2.2 b.2.2
  | 2 => exact add_sub_add_comm a.2.1 b.2.1 a.2.2 b.2.2

theorem parallel_iff : ∀ t < 6, ∀ f < 4, ∀ r < 4,
    (Parallel Tet t f r ↔ parallel? Tet t f = some r) := by
  decide +kernel

theorem lies_iff {q : Site (Int × Int × Int)} : Lies (E := Tet) m q f r ↔
    ∀ v < 4, v ≠ f → normal r (q.corner + vertexOf q.type v) = if r = 0 then m else 0 := Iff.rfl

theorem touches_iff {q : Site (Int × Int × Int)} : Touches (E := Tet) m q f r ↔
    normal r (q.corner + vertexOf q.type (if f = 0 then 1 else 0)) = if r = 0 then m else 0 :=
  Iff.rfl

theorem touches_iff_not_holds {q : Site (Int × Int × Int)} (ht : q.type < 6) (hf : f < 4)
    (inside : Holds (E := Tet) m q) :
    (∃ r < 4, parallel? Tet q.type f = some r ∧ Touches (E := Tet) m q f r) ↔
      ¬ Holds (E := Tet) m (layout.beyond q f).1 := by
  obtain ⟨t, x, y, z⟩ := q
  simp only [touches_iff]
  interval_cases t <;> interval_cases f <;>
    simp [Holds, Inside, lagX, lagZ, parallel?, normal, vertexOf, offset, firstAxis, layout, along,
      Pattern.beyond, Site.shift] at inside ⊢ <;> omega

theorem vertex_of_inRoot (he : InRoot e) (hv : v < 4) : e.vertex v = .ok (e.corner v) := by
  have within := (isInsideRoot_within he.1).eq_true_iff.mp he.2
  exact vertex_of_within he.1 (within 0 (by decide)) hv

theorem onRootFace_iff (he : Kuhn.Valid e) (v r : Nat) : onRootFace (e.corner v) r ↔
    normal r (e.toSite.corner + vertexOf e.type v) = if r = 0 then 2 ^ e.level else 0 := by
  have whole : rootLen = 2 ^ e.level * 2 ^ (depth - e.level) := Coord.two_pow_eq_mul he.1
  have scale := (Coord.two_pow_pos (depth - e.level)).ne'
  rw [corner_eq he]
  match r with
  | 0 | 1 | 2 | _ + 3 => simp [onRootFace, normal, toSite, vertexOf, whole, scale, sub_eq_zero]

theorem liesOn_eq (he : InRoot e) (r : Nat) :
    e.liesOn f r = .ok (decide (Lies (E := Tet) (2 ^ e.level) e.toSite f r)) := by
  have test : Decides (e.liesOn f r)
      (∀ v ∈ (List.range 4).filter (· ≠ f), onRootFace (e.corner v) r) := by
    apply Decides.allM
    intro v hv
    have hv : v < 4 := List.mem_range.mp (List.mem_filter.mp hv).1
    exact .after (vertex_of_inRoot he hv) ⟨_, rfl, Iff.rfl⟩
  refine test.eq_of_iff decides_of_ok ?_
  rw [lies_iff]
  refine forall_congr' fun v => ?_
  rw [onRootFace_iff he.1, List.mem_filter, List.mem_range, decide_eq_true_iff, and_imp]
  rfl

theorem rootFace?_eq (he : InRoot e) (hf : f < 4) : e.rootFace? f =
    .ok ((List.range 4).find? (Lies (E := Tet) (2 ^ e.level) e.toSite f ·)) := by
  rw [rootFace?, require_of_true hf, ok_bind]
  exact findM?_eq_ok fun r _ => liesOn_eq he r

theorem onRootPlane_point_iff {l : Nat} (hl : l ≤ depth) (hr : r < 4) :
    Shape.tet.OnRootPlane r (point (E := Tet) l c) ↔
      normal r c = if r = 0 then 2 ^ l else 0 := by
  have whole : rootLen = 2 ^ l * 2 ^ (depth - l) := Coord.two_pow_eq_mul hl
  have scale := (Coord.two_pow_pos (depth - l)).ne'
  interval_cases r <;>
    simp [Shape.OnRootPlane, point, normal, whole, scale, sub_eq_zero]

instance : LawfulWalled Tet where
  normal_add := normal_add
  parallel_iff := parallel_iff
  onRootPlane_point_iff := onRootPlane_point_iff
  inRoot_iff_holds {e l} he hl := by
    cases hl
    exact inRoot_iff_of_decides he (Kuhn.isInsideRoot_decides he)
  touches_iff_not_holds := touches_iff_not_holds
  rootFace?_eq {e l f} he hl hf := by
    cases hl
    exact rootFace?_eq he hf
  isRootBoundary_eq _ _ := rfl
  treeFace_eq _ _ := rfl

end Tet

end MeshCurve
