import MeshCurve.Element.Boundary

/-!
# Schemes

A scheme answers for one shape the questions that come before any element: its
root, its ids, its faces.  A `SchemeTable` holds the schemes of the shapes a caller
works with, and is only built if each of them supports what the caller needs.
-/

namespace MeshCurve

structure Scheme where
  shape : Shape
  recordBytes : Nat
deriving DecidableEq, Repr

namespace Scheme

def ofShape (shape : Shape) : Scheme := ⟨shape, shape.recordBytes⟩

def root (s : Scheme) : AnyElement := ⟨s.shape, Element.root⟩

def supports (s : Scheme) (op : Operation) : Bool := s.shape.supports op

def ofLinearId (s : Scheme) (level id : Nat) : Except Fault AnyElement := do
  require (level ≤ s.shape.maxLevel)
  let e : s.shape.Carrier ← Element.ofLinearId level id
  return ⟨s.shape, e⟩

private def mismatch (s : Scheme) (face : AnyElement) (rootFace : Nat) : SchemeError :=
  .faceClassMismatch s.shape rootFace (s.shape.faceShape? rootFace) face.shape

/-- The element of the scheme's shape with the face `face` on root face `rootFace`. -/
def extrudeFace (s : Scheme) (face : AnyElement) (rootFace : Nat) :
    Except Fault (Except SchemeError AnyElement) :=
  if s.shape.numFaces ≤ rootFace then return .error (s.mismatch face rootFace) else
    match s.shape with
    | .line | .tet => return .error (.unsupported s.shape .extrudeFace)
    | .quad =>
      match face.as? .line with
      | some line => do
        let e ← Quad.extrudeFace line rootFace
        return .ok ⟨.quad, e⟩
      | none => return .error (s.mismatch face rootFace)
    | .triangle =>
      match face.as? .line with
      | some line => do
        let e ← Triangle.extrudeFace line rootFace
        return .ok ⟨.triangle, e⟩
      | none => return .error (s.mismatch face rootFace)
    | .prism => do
      let e ← Prism.extrudeFace face rootFace
      return e.map (⟨.prism, ·⟩)

def describe (s : Scheme) : String :=
  s!"Scheme \x7b eclass: {s.shape.label}, element_size: {s.recordBytes} \x7d"

end Scheme

/-- At most one scheme for each shape. -/
structure SchemeTable where
  slot : Shape → Option Scheme

namespace SchemeTable

def empty : SchemeTable := ⟨fun _ => none⟩

def register (table : SchemeTable) (shape : Shape) : SchemeTable :=
  ⟨fun s => if s = shape then some (Scheme.ofShape shape) else table.slot s⟩

/-- Registers the shapes in turn, up to the first that lacks a required operation. -/
def registerAll (required : List Operation) (table : SchemeTable) :
    List Shape → Except SchemeError SchemeTable
  | [] => return table
  | shape :: shapes =>
    match required.find? fun op => !shape.supports op with
    | some op => .error (.unsupported shape op)
    | none => registerAll required (table.register shape) shapes

def ofShapes (shapes : List Shape) (required : List Operation) :
    Except SchemeError SchemeTable :=
  registerAll required empty shapes

def all : SchemeTable := Shape.all.foldl register empty

def scheme (table : SchemeTable) (shape : Shape) : Except SchemeError Scheme :=
  match table.slot shape with
  | some s => .ok s
  | none => .error (.missingScheme shape)

def contains (table : SchemeTable) (shape : Shape) : Bool := (table.slot shape).isSome

/-- The registered shapes in the order of `Shape.all`. -/
def shapes (table : SchemeTable) : List Shape :=
  (Shape.all.filterMap table.slot).map Scheme.shape

@[simp] theorem slot_register (table : SchemeTable) (shape s : Shape) :
    (table.register shape).slot s =
      if s = shape then some (Scheme.ofShape shape) else table.slot s := rfl

/-- A shape that lacks an operation is not registered; the first one it lacks is named. -/
theorem ofShapes_of_lacking {shape : Shape} {required : List Operation} {op : Operation}
    (h : required.find? (fun op => !shape.supports op) = some op) :
    ofShapes [shape] required = .error (.unsupported shape op) := by
  rw [ofShapes, registerAll, h]

theorem ofShapes_of_supports {shape : Shape} {required : List Operation}
    (h : required.find? (fun op => !shape.supports op) = none) :
    ∃ table, ofShapes [shape] required = .ok table ∧
      table.scheme shape = .ok (.ofShape shape) := by
  refine ⟨empty.register shape, ?_, ?_⟩
  · rw [ofShapes, registerAll, h]
    rfl
  · rw [scheme, slot_register, if_pos rfl]

end SchemeTable

end MeshCurve
