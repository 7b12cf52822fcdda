import MeshCurve.Element.Boundary
import MeshCurve.Proofs.Grid.Boundary
import MeshCurve.Proofs.Order

/-!
# Faces on the boundary of the root

A face on the boundary is an element of its own, of one dimension less and in the root of its
shape.  It keeps neither the coordinate across it nor the type, but these are settled by the
root face it lies on: a triangle that has a face there is of type 0, and its coordinates are
those of the face.  What the face keeps is carried to another depth and back.
-/

namespace MeshCurve.Coord

variable {c : Int} {l d d' : Nat}

/-- A corner of a cell of level `l` along an edge of the root, which has depth `d`. -/
structure Spot (l d : Nat) (c : Int) : Prop where
  coarse : l ≤ d
  aligned : Aligned c (d - l)
  within : 0 ≤ c ∧ c < 2 ^ d

theorem isCoordinate_of_within (hd : d ≤ 30) (hc : 0 ≤ c ∧ c < 2 ^ d) : IsCoordinate c := by
  have cube : (2 : Int) ^ d ≤ 2 ^ 30 := pow_le_pow_right₀ (by decide) hd
  exact ⟨by omega, by omega⟩

theorem wrap_of_isCoordinate (h : IsCoordinate c) : wrap c = c :=
  Int.bmod_eq_of_le (by exact h.1) (by exact h.2)

/-- No digit is lost on the way to a finer depth and back. -/
theorem Spot.rescale_finer {k : Nat} (h : Spot l d c) (hd : d + k ≤ 30) :
    rescale c d (d + k) = .ok (c * 2 ^ k) ∧ rescale (c * 2 ^ k) (d + k) d = .ok c ∧
      Spot l (d + k) (c * 2 ^ k) := by
  have within : 0 ≤ c * 2 ^ k ∧ c * 2 ^ k < 2 ^ (d + k) := by
    rw [pow_add, mul_two_pow_nonneg_iff, mul_lt_mul_iff_of_pos_right (two_pow_pos k)]
    exact h.within
  have fits := isCoordinate_of_within hd within
  refine ⟨?_, ?_, ?_⟩
  · rw [rescale, if_pos (Nat.le_add_right d k), Nat.add_sub_cancel_left, if_pos (by omega),
      Int.shiftLeft_eq, wrap_of_isCoordinate fits]
    rfl
  · rw [rescale]
    split
    · obtain rfl : k = 0 := by omega
      simp [wrap_of_isCoordinate (isCoordinate_of_within (by omega) h.within), pure_eq_ok]
    · rw [Nat.add_sub_cancel_left, if_pos (by omega), Int.shiftRight_eq_div_pow]
      simp [pure_eq_ok]
  · have cells : c * 2 ^ k = c / 2 ^ (d - l) * 2 ^ (d + k - l) := by
      conv_lhs => rw [h.aligned.eq_mul]
      rw [mul_assoc, ← pow_add, Nat.sub_add_comm h.coarse]
    exact ⟨by have := h.coarse; omega, cells ▸ aligned_mul (cells ▸ fits), within⟩

theorem Spot.exists_rescale (h : Spot l d c) (hd : d ≤ d') (hd' : d' ≤ 30) :
    ∃ c', rescale c d d' = .ok c' ∧ rescale c' d' d = .ok c ∧ Spot l d' c' := by
  obtain ⟨k, rfl⟩ := Nat.exists_eq_add_of_le hd
  exact ⟨c * 2 ^ k, h.rescale_finer hd'⟩

end MeshCurve.Coord

namespace MeshCurve.Element

variable {E : Type} [Element E] [LawfulNumbering E] [Anchored E] [Grid E] [LawfulGrid E]
  [Axial (Corner E)] [AnchoredGrid E]

theorem spots_of_inRoot {e : E} {l : Nat} (he : InRoot e) (hl : level e = .ok l) :
    ∀ c ∈ anchor e, Coord.Spot l (finest E) c := by
  obtain ⟨_, fits, level⟩ := level_of_valid he.1
  cases hl.symm.trans level
  exact fun c hc =>
    ⟨fits, aligned_of_valid he.1 hl c hc, inCube_iff.mp (inCube_of_inRoot he) c hc⟩

end MeshCurve.Element

/-! ## Boxes -/

namespace MeshCurve.Box

open Element

theorem inRoot_iff_spots {B : Type} [Element B] [Box B] [LawfulBox B] [BoxCurve B] {e : B} :
    InRoot e ↔ ∀ c ∈ anchor e, Coord.Spot (level e) (finest B) c := by
  constructor
  · intro he c hc
    exact ⟨(valid_iff.mp he.1).1, aligned he.1 c hc,
      (inRoot_iff_of_decides he.1 (isInsideRoot_decides e)).mp he c hc⟩
  · intro spots
    have axes : 0 < (anchor e).length := (dimension_eq e).symm ▸ (shape B).dimension_pos
    obtain ⟨c, hc⟩ := List.exists_mem_of_length_pos axes
    have he : Valid e := valid_iff.mpr ⟨(spots c hc).coarse, fun c hc => (spots c hc).aligned⟩
    exact (inRoot_iff_of_decides he (isInsideRoot_decides e)).mpr fun c hc => (spots c hc).within

end MeshCurve.Box

namespace MeshCurve.Line

open Element Coord

variable {e : Line} {f : Nat}

theorem inRoot_iff_spot : InRoot e ↔ Spot e.level depth e.x :=
  Box.inRoot_iff_spots.trans List.forall_mem_singleton

/-- The line of level `l` at an end of the root. -/
def atEnd (f l : Nat) : Line := ⟨if f = 0 then 0 else rootLen - 2 ^ (depth - l), l⟩

theorem eq_atEnd (hl : e.level ≤ depth) (hf : f < 2) (on : e.isRootBoundary f = .ok true) :
    e = atEnd f e.level := by
  have test : Decides (e.isRootBoundary f) (e.x = (atEnd f e.level).x) := by
    rw [isRootBoundary, require_of_true hf, ok_bind]
    interval_cases f
    · exact decides_of_ok
    · exact .after (show e.edgeLen = _ from cellLen_eq (by decide) hl) decides_of_ok
  obtain ⟨x, l⟩ := e
  exact congrArg (Line.mk · l) (test.eq_true_iff.mp on)

end MeshCurve.Line

namespace MeshCurve.Quad

open Element Coord

variable {e : Quad} {f : Nat}

theorem inRoot_iff_spots : InRoot e ↔ Spot e.level depth e.x ∧ Spot e.level depth e.y :=
  Box.inRoot_iff_spots.trans forall_mem_pair

/-- The quad of level `l` with a side on root face `f`, along which it is at `along`. -/
def flush (f : Nat) (along : Int) (l : Nat) : Quad :=
  match f with
  | 0 => ⟨0, along, l⟩
  | 1 => ⟨rootLen - 2 ^ (depth - l), along, l⟩
  | 2 => ⟨along, 0, l⟩
  | _ => ⟨along, rootLen - 2 ^ (depth - l), l⟩

theorem eq_flush (hl : e.level ≤ depth) (hf : f < 4) (on : e.isRootBoundary f = .ok true) :
    e = flush f (if f < 2 then e.y else e.x) e.level := by
  rw [isRootBoundary, edgeLen, cellLen_eq (by decide) hl, ok_bind] at on
  obtain ⟨x, y, l⟩ := e
  interval_cases f <;> simp_all [flush, pure_eq_ok]

theorem extrudeFace_eq {l : Nat} {x along : Int} (hl : l ≤ depth) (hf : f < 4)
    (hx : rescale x Line.depth depth = .ok along) :
    extrudeFace ⟨x, l⟩ f = .ok (flush f along l) := by
  rw [extrudeFace, require_of_true hf, ok_bind, hx, ok_bind, cellLen_eq (by decide) hl, ok_bind]
  interval_cases f <;> rfl

theorem extrudeFace_boundaryFace (he : InRoot e) (hf : f < 4)
    (on : e.isRootBoundary f = .ok true) :
    ∃ b, e.boundaryFace f = .ok b ∧ InRoot b ∧ b.level = e.level ∧ extrudeFace b f = .ok e := by
  obtain ⟨spotX, spotY⟩ := inRoot_iff_spots.mp he
  have spot : Spot e.level depth (if f < 2 then e.y else e.x) := by split <;> assumption
  obtain ⟨c, there, back, fine⟩ := spot.exists_rescale (show depth ≤ Line.depth from le_rfl) le_rfl
  refine ⟨⟨c, e.level⟩, ?_, Line.inRoot_iff_spot.mpr fine, rfl, ?_⟩
  · rw [boundaryFace, require_of_true hf, ok_bind, there]
    rfl
  · rw [extrudeFace_eq spot.coarse hf back, ← eq_flush spot.coarse hf on]

end MeshCurve.Quad

/-! ## Triangles -/

namespace MeshCurve.Triangle

open Element Coord

variable {e : Triangle} {f : Nat}

theorem spots_of_inRoot (he : InRoot e) : Spot e.level depth e.x ∧ Spot e.level depth e.y :=
  forall_mem_pair.mp (Element.spots_of_inRoot he rfl)

/-- The triangle of level `l` and type 0 with a side on root face `f`, along which it is at
`along`. -/
def flush (f : Nat) (along : Int) (l : Nat) : Triangle :=
  match f with
  | 0 => ⟨rootLen - 2 ^ (depth - l), along, 0, l⟩
  | 1 => ⟨along, along, 0, l⟩
  | _ => ⟨along, 0, 0, l⟩

/-- A site of type 0 beside face `f` of a root that is `m` cells long. -/
def Beside (m : Int) (f : Nat) (q : Site (Int × Int)) : Prop :=
  q.type = 0 ∧ normal f q.corner = if f = 0 then m - 1 else 0

/-- Only triangles of type 0 have a side on the boundary of the root, and each side lies on the
root face of its own number: one of type 1 with a side in such a plane lies outside the root. -/
theorem beside_of_lies {m : Int} {r : Nat} {q : Site (Int × Int)} (ht : q.type < 2) (hf : f < 3)
    (hr : r < 3) (inside : Holds (E := Triangle) m q) (h : Lies (E := Triangle) m q f r) :
    r = f ∧ Beside m f q := by
  obtain ⟨parallel, touches⟩ := lies_iff_touches.mp h
  rw [parallel_iff _ ht f hf r hr] at parallel
  rw [touches_iff] at touches
  obtain ⟨t, x, y⟩ := q
  have ht : t < 2 := ht
  simp only [parallel?, Option.some.injEq, Holds, Inside] at parallel inside
  subst parallel
  interval_cases t <;> interval_cases f <;>
    simp [Beside, normal, offset] at inside touches ⊢ <;> omega

theorem eq_flush_of_beside (he : Kuhn.Valid e) (hf : f < 3) (h : Beside (2 ^ e.level) f e.toSite) :
    e = flush f (if f = 0 then e.y else e.x) e.level := by
  obtain ⟨alignedX, alignedY⟩ := Valid.aligned_axes he
  have whole : rootLen = 2 ^ e.level * 2 ^ (depth - e.level) := two_pow_eq_mul he.1
  obtain ⟨x, y, t, l⟩ := e
  obtain ⟨rfl : t = 0, place⟩ := h
  have startX : x = x / 2 ^ (depth - l) * 2 ^ (depth - l) := alignedX.eq_mul
  have startY : y = y / 2 ^ (depth - l) * 2 ^ (depth - l) := alignedY.eq_mul
  interval_cases f
  · have last : x / 2 ^ (depth - l) = 2 ^ l - 1 := place
    have far : x = rootLen - 2 ^ (depth - l) := by
      rw [startX, last, Int.sub_mul, Int.one_mul, whole]
    rw [far]
    rfl
  · have diagonal : x = y := by
      rw [startX, startY]
      exact congrArg (· * _) (Int.sub_eq_zero.mp place)
    rw [diagonal]
    rfl
  · have bottom : y = 0 := by
      rw [startY]
      exact mul_eq_zero_of_left place _
    rw [bottom]
    rfl

theorem eq_flush (he : InRoot e) (hf : f < 3) (on : e.isRootBoundary f = .ok true) :
    e.treeFace f = .ok f ∧ e = flush f (if f = 0 then e.y else e.x) e.level := by
  obtain ⟨found, test, tree, lies⟩ := exists_rootFace he hf
  obtain ⟨r, rfl⟩ := Option.isSome_iff_exists.mp (Except.ok.inj (test.symm.trans on))
  obtain ⟨hr, plane⟩ := (lies r).mp rfl
  have inside := (inRoot_iff_holds he.1 rfl).mp he
  have side := (faceOnPlane_iff_lies he rfl hr).mp plane
  obtain ⟨rfl, beside⟩ := beside_of_lies he.1.2.1 hf hr inside side
  exact ⟨(tree r).mpr rfl, eq_flush_of_beside he.1 hf beside⟩

theorem extrudeFace_eq {l : Nat} {x along : Int} (hl : l ≤ depth) (hf : f < 3)
    (hx : rescale x Line.depth depth = .ok along) :
    extrudeFace ⟨x, l⟩ f = .ok (flush f along l) := by
  rw [extrudeFace, require_of_true hf, ok_bind, hx, ok_bind]
  interval_cases f
  · simp only [cellLen_eq (by decide) hl, ok_bind]
    rfl
  · rfl
  · rfl

theorem extrudeFace_boundaryFace (he : InRoot e) (hf : f < 3)
    (on : e.isRootBoundary f = .ok true) :
    e.treeFace f = .ok f ∧ ∃ b, e.boundaryFace f = .ok b ∧ InRoot b ∧ b.level = e.level ∧
      extrudeFace b f = .ok e := by
  obtain ⟨tree, whole⟩ := eq_flush he hf on
  obtain ⟨spotX, spotY⟩ := spots_of_inRoot he
  have spot : Spot e.level depth (if f = 0 then e.y else e.x) := by split <;> assumption
  obtain ⟨c, there, back, fine⟩ := spot.exists_rescale (show depth ≤ Line.depth by decide) le_rfl
  refine ⟨tree, ⟨c, e.level⟩, ?_, Line.inRoot_iff_spot.mpr fine, rfl, ?_⟩
  · rw [boundaryFace, tree, ok_bind, there]
    rfl
  · rw [extrudeFace_eq spot.coarse hf back, ← whole]

end MeshCurve.Triangle

/-! ## Prisms -/

namespace MeshCurve.Prism

open Element Coord

variable {e : Prism} {f : Nat}

theorem extrudeSide_eq {l : Nat} {x y along up : Int} (hl : l ≤ Triangle.depth) (hf : f < 3)
    (hx : rescale x Quad.depth Triangle.depth = .ok along)
    (hy : rescale y Quad.depth Line.depth = .ok up) :
    extrudeSide ⟨x, y, l⟩ f = ofFactors (Triangle.flush f along l) ⟨up, l⟩ := by
  rw [extrudeSide, hx, ok_bind]
  interval_cases f
  · simp only [cellLen_eq (by decide) hl, ok_bind, pure_eq_ok, hy]
    rfl
  · simp only [ok_bind, pure_eq_ok, hy]
    rfl
  · simp only [ok_bind, pure_eq_ok, hy]
    rfl

theorem extrudeFace_side {q : Quad} (hf : f < 3) (h : extrudeSide q f = .ok e) :
    extrudeFace ⟨.quad, q⟩ f = .ok (.ok e) := by
  rw [extrudeFace, require_of_true (by omega), ok_bind]
  simp only [if_pos (show f < bottom from hf), h, ok_bind, pure_eq_ok]

/-- The lowest and the topmost prism over a triangle. -/
theorem extrudeFace_end {tri : Triangle} (hf : f < 2) (hl : tri.level ≤ Line.depth)
    (h : ofFactors tri (Line.atEnd f tri.level) = .ok e) :
    extrudeFace ⟨.triangle, tri⟩ (3 + f) = .ok (.ok e) := by
  rw [extrudeFace, require_of_true (by omega), ok_bind]
  interval_cases f
  · change extrudeBottom tri = .ok e at h
    simp [bottom, h, ok_bind, pure_eq_ok]
  · have made : extrudeTop tri = .ok e := by
      rw [extrudeTop, cellLen_eq (by decide) hl]
      exact h
    simp [bottom, top, made, ok_bind, pure_eq_ok]

theorem extrudeFace_boundaryFace_side (he : InRoot e) (hf : f < 3)
    (on : e.isRootBoundary f = .ok true) :
    e.treeFace f = .ok f ∧ ∃ b : Quad, e.boundaryFace f = .ok ⟨.quad, b⟩ ∧ InRoot b ∧
      b.level = e.tri.level ∧ extrudeFace ⟨.quad, b⟩ f = .ok (.ok e) := by
  obtain ⟨insideT, insideN⟩ := (inRoot_iff he.1).mp he
  obtain ⟨same, fits, _⟩ := he.1
  rw [isRootBoundary_side hf] at on
  obtain ⟨tree, whole⟩ := Triangle.eq_flush insideT hf on
  obtain ⟨spotX, spotY⟩ := Triangle.spots_of_inRoot insideT
  have spot : Spot e.tri.level Triangle.depth (if f = 0 then e.tri.y else e.tri.x) := by
    split <;> assumption
  have spotN := same ▸ Line.inRoot_iff_spot.mp insideN
  have finer : Triangle.depth ≤ Quad.depth := by decide
  have equal : Line.depth ≤ Quad.depth := le_rfl
  obtain ⟨x, thereX, backX, fineX⟩ := spot.exists_rescale finer le_rfl
  obtain ⟨y, thereY, backY, fineY⟩ := spotN.exists_rescale equal le_rfl
  refine ⟨?_, ⟨x, y, e.tri.level⟩, ?_, Quad.inRoot_iff_spots.mpr ⟨fineX, fineY⟩, rfl, ?_⟩
  · rw [treeFace, if_pos (show f < bottom from hf), tree]
  · rw [boundaryFace, require_of_true (by omega), ok_bind, level_eq_ok_of_eq same, ok_bind,
      if_pos (show f < bottom from hf), thereX, ok_bind, thereY]
    rfl
  · refine extrudeFace_side hf ?_
    rw [extrudeSide_eq spot.coarse hf backX backY, ← whole, ofFactors_eq_ok_iff]
    obtain ⟨tri, z, l⟩ := e
    exact ⟨rfl, fits, by rw [show tri.level = l from same]⟩

theorem extrudeFace_boundaryFace_end (he : InRoot e) (hf : f < 2)
    (on : e.isRootBoundary (3 + f) = .ok true) :
    e.treeFace (3 + f) = .ok (3 + f) ∧ e.boundaryFace (3 + f) = .ok ⟨.triangle, e.tri⟩ ∧
      InRoot e.tri ∧ extrudeFace ⟨.triangle, e.tri⟩ (3 + f) = .ok (.ok e) := by
  obtain ⟨insideT, insideN⟩ := (inRoot_iff he.1).mp he
  obtain ⟨same, fits, _⟩ := he.1
  rw [isRootBoundary_end hf] at on
  have whole := Line.eq_atEnd insideN.1.1 hf on
  have above : ¬ 3 + f < bottom := by
    rw [bottom]
    omega
  refine ⟨if_neg above, ?_, insideT, extrudeFace_end hf (same ▸ insideN.1.1) ?_⟩
  · rw [boundaryFace, require_of_true (by omega), ok_bind, level_eq_ok_of_eq same, ok_bind,
      if_neg above]
    rfl
  · rw [ofFactors_eq_ok_iff, same, ← whole]
    exact ⟨rfl, same ▸ fits, rfl⟩

end MeshCurve.Prism

/-! ## Every shape with cells for faces -/

namespace MeshCurve

open Element

/-- `b` is a cell inside its root, of level `l` and of the shape of face `f` of shape `s`. -/
structure FaceCell (s : Shape) (f l : Nat) (b : AnyElement) : Prop where
  inRoot : b.InRoot
  level : b.level = .ok l
  shape : s.faceShape? f = some b.shape

/-- A face on the boundary of the root is a cell inside the root of its own shape, and the
element inside the root that has it on the same root face is the one it was read off. -/
theorem extrudeFace_inverts_boundaryFace :
    (∀ (e : Quad) (f : Nat), InRoot e → f < 4 → isRootBoundary e f = .ok true →
      ∃ l r b, level e = .ok l ∧ treeFace e f = .ok r ∧ e.boundaryFace f = .ok b ∧
        FaceCell .quad f l ⟨.line, b⟩ ∧ Quad.extrudeFace b r = .ok e) ∧
    (∀ (e : Triangle) (f : Nat), InRoot e → f < 3 → isRootBoundary e f = .ok true →
      ∃ l r b, level e = .ok l ∧ treeFace e f = .ok r ∧ e.boundaryFace f = .ok b ∧
        FaceCell .triangle f l ⟨.line, b⟩ ∧ Triangle.extrudeFace b r = .ok e) ∧
    ∀ (e : Prism) (f : Nat), InRoot e → f < 5 → isRootBoundary e f = .ok true →
      ∃ l r b, level e = .ok l ∧ treeFace e f = .ok r ∧ e.boundaryFace f = .ok b ∧
        FaceCell .prism f l b ∧ Prism.extrudeFace b r = .ok (.ok e) := by
  refine ⟨?_, ?_, ?_⟩
  · intro e f he hf on
    obtain ⟨b, off, inside, same, back⟩ := Quad.extrudeFace_boundaryFace he hf on
    exact ⟨e.level, f, b, rfl, rfl, off, ⟨inside, congrArg Except.ok same, rfl⟩, back⟩
  · intro e f he hf on
    obtain ⟨tree, b, off, inside, same, back⟩ := Triangle.extrudeFace_boundaryFace he hf on
    exact ⟨e.level, f, b, rfl, tree, off, ⟨inside, congrArg Except.ok same, rfl⟩, back⟩
  · intro e f he hf on
    have own : level e = .ok e.tri.level := Prism.level_eq_ok_of_eq he.1.1
    by_cases side : f < 3
    · obtain ⟨tree, b, off, inside, same, back⟩ := Prism.extrudeFace_boundaryFace_side he side on
      refine ⟨e.tri.level, f, ⟨.quad, b⟩, own, tree, off, ?_, back⟩
      exact ⟨inside, congrArg Except.ok same, by rw [Shape.faceShape?, if_pos side]⟩
    · obtain ⟨g, rfl⟩ := Nat.exists_eq_add_of_le (Nat.le_of_not_lt side)
      have hg : g < 2 := by omega
      obtain ⟨tree, off, inside, back⟩ := Prism.extrudeFace_boundaryFace_end he hg on
      refine ⟨e.tri.level, 3 + g, ⟨.triangle, e.tri⟩, own, tree, off, ?_, back⟩
      exact ⟨inside, rfl, by rw [Shape.faceShape?, if_neg side]⟩

/-- The side of the last prism on root face 0. -/
def lastSide : Quad := ⟨0x20000000, 0x20000000, 1⟩

theorem extrudeFace_inverts_boundaryFace_prism :
    InRoot lastPrism ∧ isRootBoundary lastPrism 0 = .ok true ∧
    lastPrism.boundaryFace 0 = .ok ⟨.quad, lastSide⟩ ∧ FaceCell .prism 0 1 ⟨.quad, lastSide⟩ ∧
    Prism.extrudeFace ⟨.quad, lastSide⟩ 0 = .ok (.ok lastPrism) ∧
    Triangle.extrudeFace ⟨0x20000000, 1⟩ 1 = .ok lastPrism.tri ∧
    Quad.extrudeFace ⟨0x20000000, 1⟩ 3 = .ok lastSide := by
  obtain ⟨quads, triangles, prisms⟩ := extrudeFace_inverts_boundaryFace
  have inside : InRoot lastPrism := ⟨by decide, by rfl⟩
  have on : isRootBoundary lastPrism 0 = .ok true := by rfl
  have tree : treeFace lastPrism 0 = .ok 0 := by rfl
  obtain ⟨l, r, b, hl, hr, off, cell, back⟩ := prisms lastPrism 0 inside (by decide) on
  obtain rfl : 1 = l := Except.ok.inj hl
  obtain rfl : 0 = r := Except.ok.inj (tree.symm.trans hr)
  obtain rfl := Except.ok.inj off
  have insideT : InRoot lastPrism.tri := ⟨by decide, by rfl⟩
  have treeT : treeFace lastPrism.tri 1 = .ok 1 := by rfl
  obtain ⟨_, r, line, _, hr, offT, _, backT⟩ := triangles lastPrism.tri 1 insideT (by decide) rfl
  obtain rfl : 1 = r := Except.ok.inj (treeT.symm.trans hr)
  obtain rfl := Except.ok.inj offT
  have insideQ : InRoot lastSide := ⟨by decide, by rfl⟩
  obtain ⟨_, r, line, _, hr, offQ, _, backQ⟩ := quads lastSide 3 insideQ (by decide) (by rfl)
  obtain rfl : 3 = r := Except.ok.inj hr
  obtain rfl := Except.ok.inj offQ
  exact ⟨inside, on, off, cell, back, backT, backQ⟩

end MeshCurve
