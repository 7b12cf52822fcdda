import MeshCurve.Scheme.Basic

/-!
# What a scheme refuses

A shape has the two operations between elements and faces or it lacks both, and a face is of
the shape that its number asks for or it is not.  `boundaryFace` refuses for the first reason
only.  `extrudeFace` looks at the number before it looks at anything else, so a number that no
face has is answered as a face of the wrong shape, whatever the shape supports.
-/

namespace MeshCurve

variable {s : Shape} {e face : AnyElement} {rootFace : Nat} {err : SchemeError}

/-- A call that is passed on to an element refuses nothing. -/
theorem bind_ok_ne_error {α β : Type} {x : Except Fault α} {f : α → β} :
    (do let a ← x; return .ok (f a) : Except Fault (Except SchemeError β)) ≠ .ok (.error err) := by
  intro h
  obtain ⟨a, _, h⟩ := bind_eq_ok_iff.mp h
  cases h

theorem boundaryFace_eq_error_iff :
    e.boundaryFace rootFace = .ok (.error err) ↔
      err = .unsupported e.shape .boundaryFace ∧ e.shape.supports .boundaryFace = false := by
  obtain ⟨s, x⟩ := e
  cases s
  case line | tet =>
    change Except.ok (Except.error _) = _ ↔ _
    simp [Shape.supports, eq_comm]
  case quad | triangle | prism =>
    exact iff_of_false bind_ok_ne_error (by simp [Shape.supports])

/-! ## Extrusion -/

namespace Scheme

/-- The answer to a face of the wrong shape. -/
def wrongFace (s : Shape) (rootFace : Nat) (face : AnyElement) : SchemeError :=
  .faceClassMismatch s rootFace (s.faceShape? rootFace) face.shape

theorem return_eq_error_iff {α : Type} {refusal : SchemeError} :
    (return .error refusal : Except Fault (Except SchemeError α)) = .ok (.error err) ↔
      err = refusal := by
  simp [pure_eq_ok, eq_comm]

/-- What the shapes with lines for faces have in common. -/
theorem extrudeLine_eq_error_iff (extrude : Line → Except Fault s.Carrier)
    (refusal : SchemeError) :
    (match face.as? .line with
      | some line => do
        let e ← extrude line
        return .ok ⟨s, e⟩
      | none => return .error refusal : Except Fault (Except SchemeError AnyElement)) =
        .ok (.error err) ↔ err = refusal ∧ some .line ≠ some face.shape := by
  cases h : face.as? .line with
  | none =>
      have other := AnyElement.as?_eq_none_iff.mp h
      rw [return_eq_error_iff]
      exact (and_iff_left fun same => other (Option.some.inj same).symm).symm
  | some line =>
      obtain rfl := AnyElement.as?_eq_some_iff.mp h
      exact iff_of_false bind_ok_ne_error fun h => h.2 rfl

theorem extrudePrism_eq_error_iff (hf : rootFace < 5) :
    Prism.extrudeFace face rootFace = .ok (.error err) ↔
      err = wrongFace .prism rootFace face ∧
        Shape.prism.faceShape? rootFace ≠ some face.shape := by
  have refused : (pure (Prism.extrudeFace.mismatch face rootFace) : Except Fault _) =
      .ok (.error err) ↔ err = wrongFace .prism rootFace face := return_eq_error_iff
  rw [Shape.faceShape?]
  obtain ⟨t, x⟩ := face
  cases t
  case line | tet | prism =>
    rw [Prism.extrudeFace, require_of_true hf, ok_bind, refused]
    · refine (and_iff_left ?_).symm
      split <;> simp
    · simp
    · simp
  case quad =>
    rw [Prism.extrudeFace, require_of_true hf, ok_bind]
    by_cases side : rootFace < 3
    · rw [if_pos (show rootFace < Prism.bottom from side), if_pos side]
      exact iff_of_false bind_ok_ne_error fun h => h.2 rfl
    · rw [if_neg (show ¬ rootFace < Prism.bottom from side), if_neg side, refused]
      simp
  case triangle =>
    rw [Prism.extrudeFace, require_of_true hf, ok_bind]
    by_cases side : rootFace < 3
    · have notBottom : rootFace ≠ Prism.bottom := Nat.ne_of_lt side
      have notTop : rootFace ≠ Prism.top := Nat.ne_of_lt (Nat.lt_succ_of_lt side)
      rw [if_neg notBottom, if_neg notTop, if_pos side, refused]
      simp
    · refine iff_of_false ?_ fun h => h.2 (by rw [if_neg side])
      obtain rfl | rfl : rootFace = Prism.bottom ∨ rootFace = Prism.top := by
        rw [Prism.bottom, Prism.top]
        omega
      · exact bind_ok_ne_error
      · exact bind_ok_ne_error

theorem extrudeFace_of_out_of_range (hf : s.numFaces ≤ rootFace) :
    (ofShape s).extrudeFace face rootFace = .ok (.error (wrongFace s rootFace face)) :=
  if_pos hf

theorem extrudeFace_of_lacking (hs : s.supports .extrudeFace = false) (hf : rootFace < s.numFaces) :
    (ofShape s).extrudeFace face rootFace = .ok (.error (.unsupported s .extrudeFace)) := by
  refine (if_neg (Nat.not_le.mpr hf)).trans ?_
  cases s
  case line | tet => rfl
  case quad | triangle | prism => simp [Shape.supports] at hs

theorem extrudeFace_eq_error_iff (hs : s.supports .extrudeFace = true)
    (hf : rootFace < s.numFaces) :
    (ofShape s).extrudeFace face rootFace = .ok (.error err) ↔
      err = wrongFace s rootFace face ∧ s.faceShape? rootFace ≠ some face.shape := by
  refine (iff_of_eq (congrArg (· = _) (if_neg (Nat.not_le.mpr hf)))).trans ?_
  cases s
  case line | tet => simp [Shape.supports] at hs
  case quad => exact extrudeLine_eq_error_iff (s := .quad) (Quad.extrudeFace · rootFace) _
  case triangle =>
    exact extrudeLine_eq_error_iff (s := .triangle) (Triangle.extrudeFace · rootFace) _
  case prism =>
    rw [← extrudePrism_eq_error_iff hf]
    refine bind_eq_ok_iff.trans ⟨?_, fun h => ⟨_, h, rfl⟩⟩
    rintro ⟨answer, call, same⟩
    cases answer with
    | error err' =>
        cases same
        exact call
    | ok p => cases same

end Scheme

/-- Both operations refuse a shape that lacks them, and only `extrudeFace` refuses anything else:
a number that no face of the root has, on every shape, and otherwise a face of the wrong shape, on
a shape that supports it. -/
theorem refuses_iff (s : Shape) (face : AnyElement) (rootFace : Nat) (err : SchemeError) :
    ((Scheme.ofShape s).extrudeFace face rootFace = .ok (.error err) ↔
      (s.supports .extrudeFace = false ∧ rootFace < s.numFaces) ∧
          err = .unsupported s .extrudeFace ∨
        (s.numFaces ≤ rootFace ∨
            s.supports .extrudeFace = true ∧ s.faceShape? rootFace ≠ some face.shape) ∧
          err = .faceClassMismatch s rootFace (s.faceShape? rootFace) face.shape) ∧
    (face.boundaryFace rootFace = .ok (.error err) ↔
      face.shape.supports .boundaryFace = false ∧
        err = .unsupported face.shape .boundaryFace) := by
  refine ⟨?_, boundaryFace_eq_error_iff.trans and_comm⟩
  by_cases hf : s.numFaces ≤ rootFace
  · rw [Scheme.extrudeFace_of_out_of_range hf, Scheme.wrongFace]
    rw [Except.ok.injEq, Except.error.injEq, eq_comm]
    simp [hf, Nat.not_lt.mpr hf]
  · have known : rootFace < s.numFaces := Nat.lt_of_not_le hf
    cases hs : s.supports .extrudeFace with
    | false =>
        rw [Scheme.extrudeFace_of_lacking hs known]
        simp [hf, known, eq_comm]
    | true =>
        rw [Scheme.extrudeFace_eq_error_iff hs known, Scheme.wrongFace]
        simp [hf, and_comm]

/-- A line has no face 2, and this is found out before anyone asks whether it supports faces. -/
theorem extrudeFace_line_two :
    Shape.line.supports .extrudeFace = false ∧
      (Scheme.ofShape .line).extrudeFace ⟨.line, Line.root⟩ 2 =
        .ok (.error (.faceClassMismatch .line 2 none .line)) :=
  ⟨rfl, rfl⟩

end MeshCurve
