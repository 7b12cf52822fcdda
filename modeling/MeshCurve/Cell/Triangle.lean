import MeshCurve.Cell.Kuhn

/-!
# Triangles

The two Kuhn simplices of a square.  A triangle of type 0 runs along the bottom
and up the right side, one of type 1 up the left side and along the top; face `i`
lies opposite vertex `i`.  The root is of type 0, with its faces on `x = L`,
`x = y` and `y = 0`.
-/

namespace MeshCurve

/-- `x` and `y` are the lower corner, in units of the finest triangle. -/
structure Triangle where
  x : Int
  y : Int
  type : Nat
  level : Nat
deriving DecidableEq, Repr

namespace Triangle

abbrev depth : Nat := Shape.triangle.maxLevel

def rootLen : Int := 0x20000000

def root : Triangle := ⟨0, 0, 0, 0⟩

instance : Kuhn Triangle where
  shape := .triangle
  root := root
  level := level
  type := type
  coords e := [e.x, e.y]
  mapCoords f e := { e with x := f 0 e.x, y := f 1 e.y }
  retype e type level := { e with type, level }
  parentTypes := [[0, 1], [0, 0], [1, 1], [0, 1]]
  localIndices := [[0, 1, 1, 3], [0, 2, 2, 3]]
  childCubes := [[0, 1, 1, 3], [0, 2, 2, 3]]
  childTypes := [[0, 0, 1, 0], [1, 0, 1, 1]]

def edgeLen (e : Triangle) : Except Fault Int := Coord.cellLen e.level depth

/-! ## Vertices -/

def vertex (e : Triangle) (v : Nat) : Except Fault (Int × Int) := do
  let h ← e.edgeLen
  match v with
  | 0 => return (e.x, e.y)
  | 1 =>
    if e.type = 0 then do
      let x ← coordinate (e.x + h)
      return (x, e.y)
    else do
      let y ← coordinate (e.y + h)
      return (e.x, y)
  | _ => do
    let x ← coordinate (e.x + h)
    let y ← coordinate (e.y + h)
    return (x, y)

def vertexCoords (e : Triangle) (v : Nat) : Except Fault (Int × Int × Int) := do
  require (v < 3)
  let (x, y) ← e.vertex v
  return (x, y, 0)

/-- Whether a point lies on the line through a face of the root. -/
def onRootFace (p : Int × Int) : (rootFace : Nat) → Bool
  | 0 => p.1 = rootLen
  | 1 => p.1 = p.2
  | _ => p.2 = 0

def faceEnds (e : Triangle) (face : Nat) : Except Fault ((Int × Int) × (Int × Int)) := do
  let p ← e.vertex (if face = 0 then 1 else 0)
  let q ← e.vertex (if face = 2 then 1 else 2)
  return (p, q)

def rootFace? (e : Triangle) (face : Nat) : Except Fault (Option Nat) := do
  require (face < 3)
  let (p, q) ← e.faceEnds face
  return (List.range 3).find? fun r => onRootFace p r && onRootFace q r

def isRootBoundary (e : Triangle) (face : Nat) : Except Fault Bool := do
  let r ← e.rootFace? face
  return r.isSome

def treeFace (e : Triangle) (face : Nat) : Except Fault Nat := do
  match ← e.rootFace? face with
  | some r => return r
  | none => .error .contract

/-- The root triangle consists of the points with `0 ≤ y ≤ x ≤ L`; vertices are
looked at in turn until one lies outside. -/
def isInsideRoot (e : Triangle) : Except Fault Bool :=
  (List.range 3).allM fun v => do
    let (x, y) ← e.vertex v
    return 0 ≤ y ∧ y ≤ x ∧ x ≤ rootLen

/-! ## Faces -/

def faceChildren : Nat → Nat → Except Fault (List Nat)
  | 0, 0 => return [1, 3]
  | 0, 1 => return [0, 3]
  | 0, 2 => return [0, 1]
  | 1, 0 => return [2, 3]
  | 1, 1 => return [0, 3]
  | 1, 2 => return [0, 2]
  | _, _ => .error .index

def childrenAtFace (e : Triangle) (face : Nat) : Except Fault (List Triangle) := do
  let numbers ← faceChildren e.type face
  numbers.mapM (Kuhn.child e)

def faceNeighbor (e : Triangle) (face : Nat) : Except Fault (Triangle × Nat) := do
  require (face < 3)
  let h ← e.edgeLen
  if 1 < e.type then .error .range else
    let neighbor := { e with type := 1 - e.type }
    match face with
    | 0 =>
      if e.type = 0 then do
        let x ← coordinate (e.x + h)
        return ({ neighbor with x }, 2)
      else do
        let y ← coordinate (e.y + h)
        return ({ neighbor with y }, 2)
    | 1 => return (neighbor, 1)
    | _ =>
      if e.type = 0 then do
        let y ← coordinate (e.y - h)
        return ({ neighbor with y }, 0)
      else do
        let x ← coordinate (e.x - h)
        return ({ neighbor with x }, 0)

/-! ## Encoding -/

def describe (e : Triangle) : String :=
  s!"Triangle \x7b x: {e.x}, y: {e.y}, ty: {e.type}, level: {e.level} \x7d"

theorem level_child {e c : Triangle} {i : Nat} (h : Kuhn.child e i = .ok c) :
    c.level = e.level + 1 := by
  obtain ⟨_, _, h⟩ := bind_eq_ok_iff.mp h
  obtain ⟨_, _, h⟩ := bind_eq_ok_iff.mp h
  obtain ⟨_, _, h⟩ := bind_eq_ok_iff.mp h
  obtain ⟨_, _, h⟩ := bind_eq_ok_iff.mp h
  obtain ⟨_, _, h⟩ := bind_eq_ok_iff.mp h
  cases h
  rfl

instance : Element Triangle where
  shape := .triangle
  root := root
  level e := return e.level
  parent := Kuhn.parent
  child := Kuhn.child
  childId := Kuhn.childId
  ancestor := Kuhn.ancestor
  isFamily := Kuhn.isFamily
  nca := Kuhn.nca
  linearId := Kuhn.linearId
  ofLinearId := Kuhn.ofLinearId
  successor := Kuhn.successor
  firstDescendant := Kuhn.firstDescendant
  lastDescendant := Kuhn.lastDescendant
  numFaceChildren _ face := do
    require (face < 3)
    return 2
  childrenAtFace := childrenAtFace
  faceChildFace _ face _ := return face
  faceNeighbor := faceNeighbor
  isRootBoundary := isRootBoundary
  isInsideRoot := isInsideRoot
  treeFace := treeFace
  vertexCoords := vertexCoords
  rootLen := rootLen
  Valid := Kuhn.Valid
  decideValid := inferInstance
  describe := describe
  level_child h := ⟨_, rfl, congrArg Except.ok (level_child h)⟩

end Triangle

end MeshCurve
