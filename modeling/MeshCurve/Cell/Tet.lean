import MeshCurve.Cell.Kuhn

/-!
# Tetrahedra

The six Kuhn simplices of a cube.  A tet of type `t` walks from its anchor along
axis `t / 2`, then along a second axis that its parity chooses, then to the far
corner of the cube; face `i` lies opposite vertex `i`.  The root is of type 0, the
points with `0 ≤ y ≤ z ≤ x ≤ L`, with its faces on `x = L`, `x = z`, `y = z` and
`y = 0`.
-/

namespace MeshCurve

/-- `x`, `y` and `z` are the lower corner, in units of the finest tet. -/
structure Tet where
  x : Int
  y : Int
  z : Int
  type : Nat
  level : Nat
deriving DecidableEq, Repr

namespace Tet

abbrev depth : Nat := Shape.tet.maxLevel

def rootLen : Int := 0x200000

def root : Tet := ⟨0, 0, 0, 0, 0⟩

/-- The whole simplex of any type; only that of type 0 is the root of the curve. -/
def rootOfType (type : Nat) : Except Fault Tet := do
  require (type < 6)
  return ⟨0, 0, 0, type, 0⟩

instance : Kuhn Tet where
  shape := .tet
  root := root
  level := level
  type := type
  coords e := [e.x, e.y, e.z]
  mapCoords f e := { e with x := f 0 e.x, y := f 1 e.y, z := f 2 e.z }
  retype e type level := { e with type, level }
  parentTypes :=
    [[0, 1, 2, 3, 4, 5],
     [0, 1, 1, 1, 0, 0],
     [2, 2, 2, 3, 3, 3],
     [1, 1, 2, 2, 2, 1],
     [5, 5, 4, 4, 4, 5],
     [0, 0, 0, 5, 5, 5],
     [4, 3, 3, 3, 4, 4],
     [0, 1, 2, 3, 4, 5]]
  localIndices :=
    [[0, 1, 1, 4, 1, 4, 4, 7],
     [0, 1, 2, 5, 2, 5, 4, 7],
     [0, 2, 3, 4, 1, 6, 5, 7],
     [0, 3, 1, 5, 2, 4, 6, 7],
     [0, 2, 2, 6, 3, 5, 5, 7],
     [0, 3, 3, 6, 3, 6, 6, 7]]
  childCubes :=
    [[0, 1, 1, 1, 5, 5, 5, 7],
     [0, 1, 1, 1, 3, 3, 3, 7],
     [0, 2, 2, 2, 3, 3, 3, 7],
     [0, 2, 2, 2, 6, 6, 6, 7],
     [0, 4, 4, 4, 6, 6, 6, 7],
     [0, 4, 4, 4, 5, 5, 5, 7]]
  childTypes :=
    [[0, 0, 4, 5, 0, 1, 2, 0],
     [1, 1, 2, 3, 0, 1, 5, 1],
     [2, 0, 1, 2, 2, 3, 4, 2],
     [3, 3, 4, 5, 1, 2, 3, 3],
     [4, 2, 3, 4, 0, 4, 5, 4],
     [5, 0, 1, 5, 3, 4, 5, 5]]

def edgeLen (e : Tet) : Except Fault Int := Coord.cellLen e.level depth

/-! ## Vertices -/

/-- The first axis along which a tet of the given type leaves its anchor. -/
def firstAxis (type : Nat) : Nat := type / 2

def secondAxis (type : Nat) : Nat :=
  (firstAxis type + if type % 2 = 0 then 2 else 1) % 3

def shift (e : Tet) (axis : Nat) (d : Int) : Except Fault Tet :=
  match axis with
  | 0 => do
    let x ← coordinate (e.x + d)
    return { e with x }
  | 1 => do
    let y ← coordinate (e.y + d)
    return { e with y }
  | 2 => do
    let z ← coordinate (e.z + d)
    return { e with z }
  | _ => .error .index

def anchor (e : Tet) : Int × Int × Int := (e.x, e.y, e.z)

def vertex (e : Tet) (v : Nat) : Except Fault (Int × Int × Int) := do
  let h ← e.edgeLen
  match v with
  | 0 => return e.anchor
  | 1 => do
    let e ← e.shift (firstAxis e.type) h
    return e.anchor
  | 2 => do
    let corner ← e.shift (firstAxis e.type) h
    let corner ← corner.shift (secondAxis e.type) h
    return corner.anchor
  | _ => do
    let x ← coordinate (e.x + h)
    let y ← coordinate (e.y + h)
    let z ← coordinate (e.z + h)
    return (x, y, z)

def vertexCoords (e : Tet) (v : Nat) : Except Fault (Int × Int × Int) := do
  require (v < 4)
  e.vertex v

/-- Whether a point lies on the plane through a face of the root. -/
def onRootFace (p : Int × Int × Int) : (rootFace : Nat) → Bool
  | 0 => p.1 = rootLen
  | 1 => p.1 = p.2.2
  | 2 => p.2.1 = p.2.2
  | _ => p.2.1 = 0

/-- Whether a face lies on a root face; vertices are looked at in turn until one
lies off the plane. -/
def liesOn (e : Tet) (face rootFace : Nat) : Except Fault Bool :=
  ((List.range 4).filter (· ≠ face)).allM fun v => do
    let p ← e.vertex v
    return onRootFace p rootFace

def rootFace? (e : Tet) (face : Nat) : Except Fault (Option Nat) := do
  require (face < 4)
  (List.range 4).findM? (e.liesOn face)

def isRootBoundary (e : Tet) (face : Nat) : Except Fault Bool := do
  let r ← e.rootFace? face
  return r.isSome

def treeFace (e : Tet) (face : Nat) : Except Fault Nat := do
  match ← e.rootFace? face with
  | some r => return r
  | none => .error .contract

/-- Vertices are looked at in turn until one lies outside. -/
def isInsideRoot (e : Tet) : Except Fault Bool :=
  (List.range 4).allM fun v => do
    let (x, y, z) ← e.vertex v
    return 0 ≤ y ∧ y ≤ z ∧ z ≤ x ∧ x ≤ rootLen

/-! ## Faces -/

/-- The children that touch each face, by type. -/
def faceChildren : List Table :=
  [[[1, 4, 5, 7], [0, 4, 6, 7], [0, 1, 2, 7], [0, 1, 3, 4]],
   [[1, 4, 5, 7], [0, 5, 6, 7], [0, 1, 3, 7], [0, 1, 2, 5]],
   [[3, 4, 5, 7], [0, 4, 6, 7], [0, 1, 3, 7], [0, 2, 3, 4]],
   [[1, 5, 6, 7], [0, 4, 6, 7], [0, 1, 3, 7], [0, 1, 2, 6]],
   [[3, 5, 6, 7], [0, 4, 5, 7], [0, 1, 3, 7], [0, 2, 3, 5]],
   [[3, 5, 6, 7], [0, 4, 6, 7], [0, 2, 3, 7], [0, 1, 3, 6]]]

/-- The faces with which these children lie on the face, by type. -/
def faceChildFaces : List Table :=
  [[[0, 0, 0, 0], [1, 1, 2, 1], [2, 2, 1, 2], [3, 3, 3, 3]],
   [[0, 0, 0, 0], [1, 1, 2, 1], [2, 2, 1, 2], [3, 3, 3, 3]],
   [[0, 0, 0, 0], [1, 1, 2, 1], [2, 1, 2, 2], [3, 3, 3, 3]],
   [[0, 0, 0, 0], [1, 2, 1, 1], [2, 2, 1, 2], [3, 3, 3, 3]],
   [[0, 0, 0, 0], [1, 2, 1, 1], [2, 1, 2, 2], [3, 3, 3, 3]],
   [[0, 0, 0, 0], [1, 2, 1, 1], [2, 1, 2, 2], [3, 3, 3, 3]]]

def childrenAtFace (e : Tet) (face : Nat) : Except Fault (List Tet) :=
  match faceChildren[e.type]? with
  | none => .error .index
  | some faces =>
    match faces[face]? with
    | none => .error .index
    | some numbers => numbers.mapM (Kuhn.child e)

def faceChildFace (e : Tet) (face k : Nat) : Except Fault Nat :=
  match faceChildFaces[e.type]? with
  | none => .error .index
  | some faces => faces.entry face k

/-- Across the two inner faces the neighbour shares the cube; across the outer
ones it lies in the next cube along the axis by which the tet enters or leaves
the face. -/
def faceNeighbor (e : Tet) (face : Nat) : Except Fault (Tet × Nat) := do
  require (face < 4)
  let h ← e.edgeLen
  let t := e.type
  let even := t % 2 = 0
  match face with
  | 0 => do
    let n ← e.shift (firstAxis t) h
    return ({ n with type := (t + if even then 4 else 2) % 6 }, 3)
  | 1 => return ({ e with type := (t + if even then 5 else 1) % 6 }, 1)
  | 2 => return ({ e with type := (t + if even then 1 else 5) % 6 }, 2)
  | _ => do
    let n ← e.shift (firstAxis ((t + 3) % 6)) (-h)
    return ({ n with type := (t + if even then 2 else 4) % 6 }, 0)

/-! ## Encoding -/

def describe (e : Tet) : String :=
  s!"Tet \x7b x: {e.x}, y: {e.y}, z: {e.z}, ty: {e.type}, level: {e.level} \x7d"

theorem level_child {e c : Tet} {i : Nat} (h : Kuhn.child e i = .ok c) :
    c.level = e.level + 1 := by
  obtain ⟨_, _, h⟩ := bind_eq_ok_iff.mp h
  obtain ⟨_, _, h⟩ := bind_eq_ok_iff.mp h
  obtain ⟨_, _, h⟩ := bind_eq_ok_iff.mp h
  obtain ⟨_, _, h⟩ := bind_eq_ok_iff.mp h
  obtain ⟨_, _, h⟩ := bind_eq_ok_iff.mp h
  cases h
  rfl

instance : Element Tet where
  shape := .tet
  root := root
  level e := return e.level
  parent := Kuhn.parent
  child := Kuhn.child
  childId := Kuhn.childId
  ancestor := Kuhn.ancestor
  isFamily := Kuhn.isFamily
  nca := Kuhn.nca
  linearId := Kuhn.linearId
  ofLinearId := Kuhn.ofLinearId
  successor := Kuhn.successor
  firstDescendant := Kuhn.firstDescendant
  lastDescendant := Kuhn.lastDescendant
  numFaceChildren _ face := do
    require (face < 4)
    return 4
  childrenAtFace := childrenAtFace
  faceChildFace := faceChildFace
  faceNeighbor := faceNeighbor
  isRootBoundary := isRootBoundary
  isInsideRoot := isInsideRoot
  treeFace := treeFace
  vertexCoords := vertexCoords
  rootLen := rootLen
  Valid := Kuhn.Valid
  decideValid := inferInstance
  describe := describe
  level_child h := ⟨_, rfl, congrArg Except.ok (level_child h)⟩

end Tet

end MeshCurve
