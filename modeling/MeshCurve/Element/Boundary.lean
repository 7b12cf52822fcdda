import MeshCurve.Element.Any

/-!
# Elements and their faces

A face of a quad or a triangle is a line, a side of a prism is a quad and its ends
are triangles.  `boundaryFace` reads the face off an element; `extrudeFace` builds
the element inside the root that has a given face on a given root face.  Faces and
elements have depths of their own, so anchors are rescaled on the way.
-/

namespace MeshCurve

/-! ## Quads and lines -/

namespace Quad

/-- Faces 0 and 1 run along `y`, faces 2 and 3 along `x`. -/
def boundaryFace (e : Quad) (face : Nat) : Except Fault Line := do
  require (face < 4)
  let x ← Coord.rescale (if face < 2 then e.y else e.x) depth Line.depth
  return ⟨x, e.level⟩

def extrudeFace (line : Line) (rootFace : Nat) : Except Fault Quad := do
  require (rootFace < 4)
  let along ← Coord.rescale line.x Line.depth depth
  let h ← Coord.cellLen line.level depth
  match rootFace with
  | 0 => return ⟨0, along, line.level⟩
  | 1 => return ⟨rootLen - h, along, line.level⟩
  | 2 => return ⟨along, 0, line.level⟩
  | _ => return ⟨along, rootLen - h, line.level⟩

end Quad

/-! ## Triangles and lines -/

namespace Triangle

/-- The face has to lie on the root; root face 0 runs along `y`, the others
along `x`. -/
def boundaryFace (e : Triangle) (face : Nat) : Except Fault Line := do
  let r ← e.treeFace face
  let x ← Coord.rescale (if r = 0 then e.y else e.x) depth Line.depth
  return ⟨x, e.level⟩

/-- The triangle inside the root with a face on it is of type 0. -/
def extrudeFace (line : Line) (rootFace : Nat) : Except Fault Triangle := do
  require (rootFace < 3)
  let t ← Coord.rescale line.x Line.depth depth
  match rootFace with
  | 0 => do
    let h ← Coord.cellLen line.level depth
    return ⟨rootLen - h, t, 0, line.level⟩
  | 1 => return ⟨t, t, 0, line.level⟩
  | _ => return ⟨t, 0, 0, line.level⟩

end Triangle

/-! ## Prisms, quads and triangles -/

namespace Prism

/-- The first axis of a side runs as the face of the triangle does, the second
along the line. -/
def boundaryFace (e : Prism) (face : Nat) : Except Fault AnyElement := do
  require (face < 5)
  let l ← e.level
  if face < bottom then
    let x ← Coord.rescale (if face = 0 then e.tri.y else e.tri.x) Triangle.depth Quad.depth
    let y ← Coord.rescale e.line.x Line.depth Quad.depth
    return ⟨.quad, (⟨x, y, l⟩ : Quad)⟩
  else return ⟨.triangle, e.tri⟩

/-- The prism of type 0 with a side on the root. -/
def extrudeSide (q : Quad) (rootFace : Nat) : Except Fault Prism := do
  let along ← Coord.rescale q.x Quad.depth Triangle.depth
  let tri : Triangle ← match rootFace with
    | 0 => do
      let h ← Coord.cellLen q.level Triangle.depth
      pure ⟨Triangle.rootLen - h, along, 0, q.level⟩
    | 1 => pure ⟨along, along, 0, q.level⟩
    | _ => pure ⟨along, 0, 0, q.level⟩
  let x ← Coord.rescale q.y Quad.depth Line.depth
  ofFactors tri ⟨x, q.level⟩

def extrudeBottom (tri : Triangle) : Except Fault Prism :=
  ofFactors tri ⟨0, tri.level⟩

def extrudeTop (tri : Triangle) : Except Fault Prism := do
  let h ← Coord.cellLen tri.level Line.depth
  ofFactors tri ⟨Line.rootLen - h, tri.level⟩

/-- The sides are extruded from quads, the ends from triangles. -/
def extrudeFace (face : AnyElement) (rootFace : Nat) :
    Except Fault (Except SchemeError Prism) := do
  require (rootFace < 5)
  match face with
  | ⟨.quad, q⟩ =>
    if rootFace < bottom then
      let e ← extrudeSide q rootFace
      return .ok e
    else return mismatch
  | ⟨.triangle, tri⟩ =>
    if rootFace = bottom then
      let e ← extrudeBottom tri
      return .ok e
    else if rootFace = top then
      let e ← extrudeTop tri
      return .ok e
    else return mismatch
  | _ => return mismatch
where
  mismatch : Except SchemeError Prism :=
    .error (.faceClassMismatch .prism rootFace (Shape.prism.faceShape? rootFace) face.shape)

end Prism

/-! ## Any element -/

def AnyElement.boundaryFace (e : AnyElement) (face : Nat) :
    Except Fault (Except SchemeError AnyElement) :=
  match e with
  | ⟨.quad, q⟩ => do
    let line ← q.boundaryFace face
    return .ok ⟨.line, line⟩
  | ⟨.triangle, tri⟩ => do
    let line ← tri.boundaryFace face
    return .ok ⟨.line, line⟩
  | ⟨.prism, p⟩ => do
    let b ← p.boundaryFace face
    return .ok b
  | ⟨s, _⟩ => return .error (.unsupported s .boundaryFace)

end MeshCurve
