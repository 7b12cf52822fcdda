import MeshCurve.Proofs.Grid.Extrusion
import MeshCurve.Proofs.Scheme

/-!
# Elements on given faces

Any cell inside the root of a face is the face of an element on the root, as long as that
element has a level to be on.  Lines and quads go deeper than the triangles and prisms they are
faces of.  A prism checks the level of its factors, but a triangle is made without a look at
it where no length of an edge is needed, which is on two root faces out of three.
-/

namespace MeshCurve.Coord

variable {a c c' : Int} {l d d' : Nat}

theorem spot_mul (hl : l ≤ d) (hd : d ≤ 30) (ha : 0 ≤ a ∧ a < 2 ^ l) :
    Spot l d (a * 2 ^ (d - l)) := by
  have within : 0 ≤ a * 2 ^ (d - l) ∧ a * 2 ^ (d - l) < 2 ^ d := by
    rw [two_pow_eq_mul hl, mul_two_pow_nonneg_iff, mul_lt_mul_iff_of_pos_right (two_pow_pos _)]
    exact ha
  exact ⟨hl, aligned_mul (isCoordinate_of_within hd within), within⟩

theorem Spot.exists_cell (h : Spot l d c) : ∃ a, (0 ≤ a ∧ a < 2 ^ l) ∧ c = a * 2 ^ (d - l) := by
  have within := h.within
  rw [two_pow_eq_mul h.coarse, within_iff] at within
  exact ⟨_, within, h.aligned.eq_mul⟩

theorem spot_zero (hl : l ≤ d) (hd : d ≤ 30) : Spot l d 0 := by
  simpa using spot_mul hl hd ⟨le_rfl, two_pow_pos l⟩

theorem spot_last (hl : l ≤ d) (hd : d ≤ 30) : Spot l d (2 ^ d - 2 ^ (d - l)) := by
  have positive := two_pow_pos l
  have last := spot_mul (a := 2 ^ l - 1) hl hd (by omega)
  rwa [Int.sub_mul, Int.one_mul, ← two_pow_eq_mul hl] at last

/-- A spot of a coarser mesh is one of the finer mesh too, if its level is there at all. -/
theorem Spot.exists_coarser (h : Spot l d' c') (hl : l ≤ d) (hd : d ≤ d') (hd' : d' ≤ 30) :
    ∃ c, rescale c' d' d = .ok c ∧ rescale c d d' = .ok c' ∧ Spot l d c := by
  obtain ⟨k, rfl⟩ := Nat.exists_eq_add_of_le hd
  obtain ⟨a, within, rfl⟩ := h.exists_cell
  have spot : Spot l d (a * 2 ^ (d - l)) := spot_mul hl (Nat.le_trans hd hd') within
  obtain ⟨finer, coarser, _⟩ := spot.rescale_finer hd'
  rw [mul_assoc, ← pow_add, ← Nat.sub_add_comm hl] at finer coarser
  exact ⟨_, coarser, finer, spot⟩

end MeshCurve.Coord

namespace MeshCurve

/-- Element `e` is inside the root and `b` is its face on root face `f`. -/
structure Bears (e : AnyElement) (f : Nat) (b : AnyElement) : Prop where
  inRoot : e.InRoot
  onRoot : e.isRootBoundary f = .ok true
  face : e.boundaryFace f = .ok (.ok b)

/-! ## Quads and lines -/

namespace Line

open Element Coord

variable {f l : Nat}

theorem inRoot_atEnd (hl : l ≤ depth) : InRoot (atEnd f l) := by
  rw [inRoot_iff_spot, atEnd]
  split
  · exact spot_zero hl le_rfl
  · exact spot_last hl le_rfl

theorem isRootBoundary_atEnd (hl : l ≤ depth) (hf : f < 2) :
    (atEnd f l).isRootBoundary f = .ok true := by
  rw [isRootBoundary, require_of_true hf, ok_bind]
  interval_cases f
  · rfl
  · rw [edgeLen, atEnd, cellLen_eq (by decide) hl]
    simp [ok_bind, pure_eq_ok]

end Line

namespace Quad

open Element Coord

variable {f l : Nat} {along : Int} {b : Line}

theorem inRoot_flush (h : Spot l depth along) : InRoot (flush f along l) := by
  have first := spot_zero h.coarse (show depth ≤ 30 from le_rfl)
  have last := spot_last h.coarse (show depth ≤ 30 from le_rfl)
  rw [inRoot_iff_spots]
  match f with
  | 0 => exact ⟨first, h⟩
  | 1 => exact ⟨last, h⟩
  | 2 => exact ⟨h, first⟩
  | _ + 3 => exact ⟨h, last⟩

theorem isRootBoundary_flush (hl : l ≤ depth) (hf : f < 4) :
    (flush f along l).isRootBoundary f = .ok true := by
  have edge : (flush f along l).edgeLen = .ok (2 ^ (depth - l)) := by
    interval_cases f <;> exact cellLen_eq (by decide) hl
  rw [isRootBoundary, edge, ok_bind]
  interval_cases f <;> simp [flush, pure_eq_ok]

theorem boundaryFace_flush {x : Int} (hf : f < 4)
    (hx : rescale along depth Line.depth = .ok x) :
    (flush f along l).boundaryFace f = .ok ⟨x, l⟩ := by
  rw [boundaryFace, require_of_true hf, ok_bind]
  interval_cases f <;> simp [flush, hx, ok_bind, pure_eq_ok]

theorem exists_extrudeFace (hb : InRoot b) (hf : f < 4) :
    ∃ e, extrudeFace b f = .ok e ∧ e.level = b.level ∧ Bears ⟨.quad, e⟩ f ⟨.line, b⟩ := by
  obtain ⟨x, l⟩ := b
  have spot := Line.inRoot_iff_spot.mp hb
  obtain ⟨along, there, back, spot⟩ := spot.exists_coarser (d := depth) spot.coarse le_rfl le_rfl
  refine ⟨flush f along l, extrudeFace_eq spot.coarse hf there, ?_, inRoot_flush spot,
    isRootBoundary_flush spot.coarse hf, ?_⟩
  · interval_cases f <;> rfl
  · exact bind_eq_ok_iff.mpr ⟨_, boundaryFace_flush hf back, rfl⟩

end Quad

/-! ## Triangles -/

namespace Triangle

open Element Coord

variable {f l : Nat} {along : Int} {b : Line} {e : Triangle}

theorem valid_of_axes (hl : e.level ≤ depth) (ht : e.type < 2)
    (hx : Aligned e.x (depth - e.level)) (hy : Aligned e.y (depth - e.level)) : Kuhn.Valid e := by
  refine ⟨hl, ht, fun c hc => ?_⟩
  obtain rfl | rfl : c = e.x ∨ c = e.y := by simpa [Kuhn.coords] using hc
  · exact hx
  · exact hy

theorem level_flush : (flush f along l).level = l := by
  match f with
  | 0 | 1 | _ + 2 => rfl

theorem valid_flush (h : Spot l depth along) : Kuhn.Valid (flush f along l) := by
  have first := (spot_zero h.coarse (show depth ≤ 30 by decide)).aligned
  have last := (spot_last h.coarse (show depth ≤ 30 by decide)).aligned
  match f with
  | 0 => exact valid_of_axes h.coarse Nat.two_pos last h.aligned
  | 1 => exact valid_of_axes h.coarse Nat.two_pos h.aligned h.aligned
  | _ + 2 => exact valid_of_axes h.coarse Nat.two_pos h.aligned first

/-- In units of its own legs, the triangle is the `a`-th one along the root face. -/
theorem toSite_flush {a : Int} (hl : l ≤ depth) (hf : f < 3) :
    (flush f (a * 2 ^ (depth - l)) l).toSite =
      ⟨0, if f = 0 then (2 ^ l - 1, a) else if f = 1 then (a, a) else (a, 0)⟩ := by
  have scale := (two_pow_pos (depth - l)).ne'
  have whole : rootLen = 2 ^ l * 2 ^ (depth - l) := two_pow_eq_mul hl
  have last : rootLen - 2 ^ (depth - l) = (2 ^ l - 1) * 2 ^ (depth - l) := by
    rw [whole, Int.sub_mul, Int.one_mul]
  interval_cases f <;> simp [toSite, flush, last, scale]

theorem inRoot_flush (h : Spot l depth along) (hf : f < 3) : InRoot (flush f along l) := by
  obtain ⟨a, within, rfl⟩ := h.exists_cell
  rw [inRoot_iff_holds (valid_flush h) rfl, level_flush]
  change Holds (E := Triangle) _ (flush f _ l).toSite
  rw [toSite_flush h.coarse hf]
  interval_cases f <;> simp [Holds, Inside] <;> omega

theorem rootFace_flush (h : Spot l depth along) (hf : f < 3) :
    (flush f along l).isRootBoundary f = .ok true ∧ (flush f along l).treeFace f = .ok f := by
  have inside := inRoot_flush h hf
  obtain ⟨found, test, tree, lies⟩ := exists_rootFace inside hf
  have plane : FaceOnPlane (flush f along l) f f := by
    obtain ⟨a, within, rfl⟩ := h.exists_cell
    rw [faceOnPlane_iff_lies inside rfl hf, level_flush]
    change Lies (E := Triangle) _ (flush f _ l).toSite f f
    rw [toSite_flush h.coarse hf, lies_iff_touches, parallel_iff 0 Nat.two_pos f hf f hf,
      touches_iff]
    interval_cases f <;> simp [parallel?, normal, offset]
  obtain rfl := (lies f).mpr ⟨hf, plane⟩
  exact ⟨test, (tree f).mpr rfl⟩

theorem exists_extrudeFace (hb : InRoot b) (hl : b.level ≤ depth) (hf : f < 3) :
    ∃ e, extrudeFace b f = .ok e ∧ e.level = b.level ∧ Bears ⟨.triangle, e⟩ f ⟨.line, b⟩ := by
  obtain ⟨x, l⟩ := b
  have spot := Line.inRoot_iff_spot.mp hb
  obtain ⟨along, there, back, spot⟩ :=
    spot.exists_coarser hl (show depth ≤ Line.depth by decide) le_rfl
  obtain ⟨onRoot, tree⟩ := rootFace_flush spot hf
  refine ⟨flush f along l, extrudeFace_eq spot.coarse hf there, level_flush, inRoot_flush spot hf,
    onRoot, ?_⟩
  · refine bind_eq_ok_iff.mpr ⟨⟨x, l⟩, ?_, rfl⟩
    rw [boundaryFace, tree, ok_bind]
    interval_cases f <;> simp [flush, back, ok_bind, pure_eq_ok]

/-- On root face 0 the length of an edge is needed, and there is none past the finest level. -/
theorem extrudeFace_deep (hl : depth < b.level) (made : extrudeFace b f = .ok e) :
    (f = 1 ∨ f = 2) ∧ e.level = b.level := by
  obtain ⟨hf, made⟩ := of_require_bind made
  obtain ⟨t, _, made⟩ := bind_eq_ok_iff.mp made
  interval_cases f
  · obtain ⟨h, edge, _⟩ := bind_eq_ok_iff.mp made
    obtain ⟨k, found, _⟩ := bind_eq_ok_iff.mp edge
    exact absurd (place_eq_ok_iff.mp found).1 (Nat.not_le.mpr hl)
  · cases made
    exact ⟨.inl rfl, rfl⟩
  · cases made
    exact ⟨.inr rfl, rfl⟩

end Triangle

/-! ## Prisms -/

namespace Prism

open Element Coord

variable {f : Nat} {e : Prism}

theorem exists_extrudeSide {q : Quad} (hq : InRoot q) (hl : q.level ≤ depth) (hf : f < 3) :
    ∃ e, extrudeFace ⟨.quad, q⟩ f = .ok (.ok e) ∧ e.level = .ok q.level ∧
      Bears ⟨.prism, e⟩ f ⟨.quad, q⟩ := by
  obtain ⟨x, y, l⟩ := q
  obtain ⟨spotX, spotY⟩ := Quad.inRoot_iff_spots.mp hq
  have coarser : Triangle.depth ≤ Quad.depth := by decide
  have equal : Quad.depth ≤ Line.depth := le_rfl
  obtain ⟨along, thereX, backX, spotX⟩ :=
    spotX.exists_coarser (Nat.le_trans hl (by decide)) coarser le_rfl
  obtain ⟨up, thereY, backY, spotY⟩ := spotY.exists_rescale equal le_rfl
  have insideT := Triangle.inRoot_flush spotX hf
  have insideN : InRoot (⟨up, l⟩ : Line) := Line.inRoot_iff_spot.mpr spotY
  have level : (Triangle.flush f along l).level = l := Triangle.level_flush
  have valid : Valid ⟨Triangle.flush f along l, ⟨up, l⟩⟩ :=
    ⟨level, level.trans_le hl, insideT.1, insideN.1⟩
  refine ⟨⟨Triangle.flush f along l, ⟨up, l⟩⟩, extrudeFace_side hf ?_, ?_,
    (inRoot_iff valid).mpr ⟨insideT, insideN⟩, ?_, ?_⟩
  · rw [extrudeSide_eq spotX.coarse hf thereX thereY, ofFactors_eq_ok_iff]
    exact ⟨level, level.trans_le hl, rfl⟩
  · rw [level_eq_ok_of_eq level, level]
  · exact (isRootBoundary_side hf).trans (Triangle.rootFace_flush spotX hf).1
  · refine bind_eq_ok_iff.mpr ⟨_, ?_, rfl⟩
    rw [boundaryFace, require_of_true (by omega), ok_bind, level_eq_ok_of_eq level, level, ok_bind,
      if_pos (show f < bottom from hf)]
    interval_cases f <;> simp [Triangle.flush, backX, backY, ok_bind, pure_eq_ok]

theorem exists_extrudeEnd {tri : Triangle} (ht : InRoot tri) (hl : tri.level ≤ depth) (hf : f < 2) :
    ∃ e, extrudeFace ⟨.triangle, tri⟩ (3 + f) = .ok (.ok e) ∧ e.level = .ok tri.level ∧
      Bears ⟨.prism, e⟩ (3 + f) ⟨.triangle, tri⟩ := by
  have shallow : tri.level ≤ Line.depth := Nat.le_trans hl (by decide)
  have insideN : InRoot (Line.atEnd f tri.level) := Line.inRoot_atEnd shallow
  have valid : Valid ⟨tri, Line.atEnd f tri.level⟩ := ⟨rfl, hl, ht.1, insideN.1⟩
  have above : ¬ 3 + f < bottom := by
    rw [bottom]
    omega
  refine ⟨⟨tri, Line.atEnd f tri.level⟩, extrudeFace_end hf shallow ?_, level_eq_ok_of_eq rfl,
    (inRoot_iff valid).mpr ⟨ht, insideN⟩, ?_, ?_⟩
  · exact ofFactors_eq_ok_iff.mpr ⟨rfl, hl, rfl⟩
  · exact (isRootBoundary_end hf).trans (Line.isRootBoundary_atEnd shallow hf)
  · refine bind_eq_ok_iff.mpr ⟨_, ?_, rfl⟩
    rw [boundaryFace, require_of_true (by omega), ok_bind, level_eq_ok_of_eq rfl, ok_bind,
      if_neg above]
    rfl

/-- The factors of a prism are put together only on the levels of prisms. -/
theorem level_le_of_extrudeSide {q : Quad} (made : extrudeSide q f = .ok e) : q.level ≤ depth := by
  obtain ⟨along, _, made⟩ := bind_eq_ok_iff.mp made
  have combined : ∃ tri x, ofFactors tri ⟨x, q.level⟩ = .ok e := by
    match f with
    | 0 =>
        obtain ⟨_, _, made⟩ := bind_eq_ok_iff.mp made
        obtain ⟨_, _, made⟩ := bind_eq_ok_iff.mp made
        obtain ⟨x, _, made⟩ := bind_eq_ok_iff.mp made
        exact ⟨_, x, made⟩
    | 1 | _ + 2 =>
        obtain ⟨_, _, made⟩ := bind_eq_ok_iff.mp made
        obtain ⟨x, _, made⟩ := bind_eq_ok_iff.mp made
        exact ⟨_, x, made⟩
  obtain ⟨tri, x, made⟩ := combined
  obtain ⟨same, fits, _⟩ := ofFactors_eq_ok_iff.mp made
  exact same.symm.trans_le fits

theorem level_le_of_extrudeEnd {tri : Triangle}
    (made : extrudeBottom tri = .ok e ∨ extrudeTop tri = .ok e) : tri.level ≤ depth := by
  rcases made with made | made
  · exact (ofFactors_eq_ok_iff.mp made).2.1
  · obtain ⟨_, _, made⟩ := bind_eq_ok_iff.mp made
    exact (ofFactors_eq_ok_iff.mp made).2.1

/-- Prisms are made from quads on the sides and from triangles at the ends. -/
theorem extrudeFace_eq_ok {b : AnyElement} (made : extrudeFace b f = .ok (.ok e)) :
    (∃ q : Quad, b = ⟨.quad, q⟩ ∧ f < 3 ∧ q.level ≤ depth) ∨
      ∃ (tri : Triangle) (g : Nat), b = ⟨.triangle, tri⟩ ∧ g < 2 ∧ f = 3 + g ∧
        tri.level ≤ depth := by
  obtain ⟨t, x⟩ := b
  have call := (of_require_bind made).2
  cases t
  case line | tet | prism => cases call
  case quad =>
    left
    change (if f < bottom then _ else _) = _ at call
    by_cases side : f < bottom
    · rw [if_pos side] at call
      obtain ⟨_, made, _⟩ := bind_eq_ok_iff.mp call
      exact ⟨x, rfl, side, level_le_of_extrudeSide made⟩
    · rw [if_neg side] at call
      cases call
  case triangle =>
    right
    change (if f = bottom then _ else if f = top then _ else _) = _ at call
    by_cases low : f = bottom
    · rw [if_pos low] at call
      obtain ⟨_, made, _⟩ := bind_eq_ok_iff.mp call
      exact ⟨x, 0, rfl, by decide, low, level_le_of_extrudeEnd (.inl made)⟩
    · rw [if_neg low] at call
      by_cases high : f = top
      · rw [if_pos high] at call
        obtain ⟨_, made, _⟩ := bind_eq_ok_iff.mp call
        exact ⟨x, 1, rfl, by decide, high, level_le_of_extrudeEnd (.inr made)⟩
      · rw [if_neg high] at call
        cases call

end Prism

/-! ## Every scheme -/

open Element

section

variable {s : Shape} {face e : AnyElement} {rootFace : Nat}

theorem Scheme.extrudeLine_eq_ok (extrude : Line → Except Fault s.Carrier)
    {refusal : SchemeError} (made : (match face.as? .line with
      | some line => do
        let e ← extrude line
        return .ok ⟨s, e⟩
      | none => return .error refusal : Except Fault (Except SchemeError AnyElement)) =
        .ok (.ok e)) :
    ∃ line x, face = ⟨.line, line⟩ ∧ extrude line = .ok x ∧ e = ⟨s, x⟩ := by
  cases h : face.as? .line with
  | none =>
      rw [h] at made
      cases made
  | some line =>
      rw [h] at made
      obtain ⟨x, call, same⟩ := bind_eq_ok_iff.mp made
      cases same
      exact ⟨line, x, AnyElement.as?_eq_some_iff.mp h, call, rfl⟩

/-- Which shape makes an element from which face. -/
theorem Scheme.extrudeFace_eq_ok (made : (ofShape s).extrudeFace face rootFace = .ok (.ok e)) :
    rootFace < s.numFaces ∧
      ((∃ b x, s = .quad ∧ face = ⟨.line, b⟩ ∧ Quad.extrudeFace b rootFace = .ok x ∧
          e = ⟨.quad, x⟩) ∨
        (∃ b x, s = .triangle ∧ face = ⟨.line, b⟩ ∧ Triangle.extrudeFace b rootFace = .ok x ∧
          e = ⟨.triangle, x⟩) ∨
        ∃ x, s = .prism ∧ Prism.extrudeFace face rootFace = .ok (.ok x) ∧ e = ⟨.prism, x⟩) := by
  by_cases hf : s.numFaces ≤ rootFace
  · rw [extrudeFace_of_out_of_range hf] at made
    cases made
  · refine ⟨Nat.lt_of_not_le hf, ?_⟩
    have call := (if_neg hf).symm.trans made
    cases s
    case line | tet => cases call
    case quad =>
      obtain ⟨b, x, line, made, same⟩ :=
        extrudeLine_eq_ok (s := .quad) (Quad.extrudeFace · rootFace) call
      exact .inl ⟨b, x, rfl, line, made, same⟩
    case triangle =>
      obtain ⟨b, x, line, made, same⟩ :=
        extrudeLine_eq_ok (s := .triangle) (Triangle.extrudeFace · rootFace) call
      exact .inr (.inl ⟨b, x, rfl, line, made, same⟩)
    case prism =>
      obtain ⟨answer, own, same⟩ := bind_eq_ok_iff.mp call
      cases answer with
      | error => cases same
      | ok x =>
          cases same
          exact .inr (.inr ⟨x, rfl, own, rfl⟩)

end

/-- An element that a scheme makes from a cell inside the root of a face is of the scheme's shape
and of the level of the cell.  It is inside the root with the cell as its face, unless it is a
triangle past the finest level of triangles, which is made on two root faces out of three. -/
theorem extrudeFace_bears (s : Shape) {face e : AnyElement} {rootFace : Nat}
    (inside : face.InRoot)
    (made : (Scheme.ofShape s).extrudeFace face rootFace = .ok (.ok e)) :
    ∃ l, face.level = .ok l ∧ e.shape = s ∧ e.level = .ok l ∧
      (l ≤ s.maxLevel ∧ Bears e rootFace face ∨
        s.maxLevel < l ∧ s = .triangle ∧ l = 30 ∧ (rootFace = 1 ∨ rootFace = 2) ∧ ¬ e.Valid) := by
  obtain ⟨hf, ⟨b, x, rfl, rfl, call, rfl⟩ | ⟨b, x, rfl, rfl, call, rfl⟩ | ⟨x, rfl, call, rfl⟩⟩ :=
    Scheme.extrudeFace_eq_ok made
  · have fits : b.level ≤ Shape.quad.maxLevel := (Line.inRoot_iff_spot.mp inside).coarse
    obtain ⟨x', made', level, bears⟩ := Quad.exists_extrudeFace inside hf
    cases call.symm.trans made'
    exact ⟨b.level, rfl, rfl, congrArg Except.ok level, .inl ⟨fits, bears⟩⟩
  · by_cases fits : b.level ≤ Triangle.depth
    · obtain ⟨x', made', level, bears⟩ := Triangle.exists_extrudeFace inside fits hf
      cases call.symm.trans made'
      exact ⟨b.level, rfl, rfl, congrArg Except.ok level, .inl ⟨fits, bears⟩⟩
    · have deep := Nat.lt_of_not_le fits
      obtain ⟨flat, level⟩ := Triangle.extrudeFace_deep deep call
      have finest : b.level ≤ 30 := (Line.inRoot_iff_spot.mp inside).coarse
      refine ⟨b.level, rfl, rfl, congrArg Except.ok level, .inr ⟨deep, rfl, ?_, flat, ?_⟩⟩
      · exact Nat.le_antisymm finest deep
      · exact fun valid => fits (level ▸ valid.1)
  · obtain ⟨q, rfl, side, fits⟩ | ⟨tri, g, rfl, hg, rfl, fits⟩ := Prism.extrudeFace_eq_ok call
    · obtain ⟨x', made', level, bears⟩ := Prism.exists_extrudeSide inside fits side
      cases call.symm.trans made'
      exact ⟨q.level, rfl, rfl, level, .inl ⟨fits, bears⟩⟩
    · obtain ⟨x', made', level, bears⟩ := Prism.exists_extrudeEnd inside fits hg
      cases call.symm.trans made'
      exact ⟨tri.level, rfl, rfl, level, .inl ⟨fits, bears⟩⟩

theorem extrudeFace_bears_prism :
    AnyElement.InRoot ⟨.quad, lastSide⟩ ∧
      (Scheme.ofShape .prism).extrudeFace ⟨.quad, lastSide⟩ 0 = .ok (.ok ⟨.prism, lastPrism⟩) ∧
      Bears ⟨.prism, lastPrism⟩ 0 ⟨.quad, lastSide⟩ := by
  have inside : AnyElement.InRoot ⟨.quad, lastSide⟩ := ⟨by decide, by rfl⟩
  have made : (Scheme.ofShape .prism).extrudeFace ⟨.quad, lastSide⟩ 0 =
      .ok (.ok ⟨.prism, lastPrism⟩) := by rfl
  obtain ⟨l, _, _, _, ⟨_, bears⟩ | ⟨_, other, _⟩⟩ := extrudeFace_bears .prism inside made
  · exact ⟨inside, made, bears⟩
  · cases other

/-- A line next to the corner of the root, of the finest level of lines.  The triangle on it
would be of a level that triangles do not have. -/
theorem extrudeFace_finest_line :
    AnyElement.InRoot ⟨.line, ⟨1, 30⟩⟩ ∧
      (Scheme.ofShape .triangle).extrudeFace ⟨.line, ⟨1, 30⟩⟩ 1 =
        .ok (.ok ⟨.triangle, ⟨0, 0, 0, 30⟩⟩) ∧
      ¬ AnyElement.Valid ⟨.triangle, ⟨0, 0, 0, 30⟩⟩ :=
  ⟨⟨by decide, by rfl⟩, by rfl, by decide⟩

end MeshCurve
