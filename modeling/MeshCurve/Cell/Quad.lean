import MeshCurve.Digit.Morton
import MeshCurve.Element.Basic

/-!
# Quads

The cells of a square, quartered at every level and visited in Morton order: the
number of a child holds its x digit in bit 0 and its y digit in bit 1.  The faces
are `-x`, `+x`, `-y` and `+y`.
-/

namespace MeshCurve

/-- `x` and `y` are the lower corner, in units of the finest quad. -/
structure Quad where
  x : Int
  y : Int
  level : Nat
deriving DecidableEq, Repr

namespace Quad

abbrev depth : Nat := Shape.quad.maxLevel

def rootLen : Int := 0x40000000

def edgeLen (e : Quad) : Except Fault Int := Coord.cellLen e.level depth

/-! ## Tree -/

def root : Quad := ⟨0, 0, 0⟩

def parent (e : Quad) : Except Fault Quad := do
  require (0 < e.level)
  let x ← Coord.withDigit e.x e.level depth 0
  let y ← Coord.withDigit e.y e.level depth 0
  return ⟨x, y, e.level - 1⟩

def child (e : Quad) (i : Nat) : Except Fault Quad := do
  require (i < 4)
  require (e.level < depth)
  let x ← Coord.withDigit e.x (e.level + 1) depth (i % 2)
  let y ← Coord.withDigit e.y (e.level + 1) depth (i / 2 % 2)
  return ⟨x, y, e.level + 1⟩

def childId (e : Quad) : Except Fault Nat := Coord.cubeId [e.x, e.y] e.level depth

def ancestor (e : Quad) (level : Nat) : Except Fault Quad := do
  require (level ≤ e.level)
  Element.climb parent (e.level - level) e

/-- The first quad has to be a first child; its parent then fixes all four. -/
def isFamily (family : List Quad) : Except Fault Bool :=
  match family with
  | [first, _, _, _] =>
    if first.level = 0 then return false else do
      let i ← first.childId
      if i ≠ 0 then return false else
        let p ← first.parent
        let siblings ← (List.range 4).mapM p.child
        return family = siblings
  | _ => return false

def nca (a b : Quad) : Except Fault Quad := do
  let level := min (min (min a.level b.level) (Coord.commonLevel a.x b.x depth))
    (Coord.commonLevel a.y b.y depth)
  let x ← Coord.cutToLevel a.x level depth
  let y ← Coord.cutToLevel a.y level depth
  return ⟨x, y, level⟩

/-! ## Curve -/

def linearId (e : Quad) (level : Nat) : Except Fault Nat := do
  require (level ≤ depth)
  if level ≤ e.level then Morton.encode [e.x, e.y] level depth else
    let id ← Morton.encode [e.x, e.y] e.level depth
    return wrapWord (id <<< (2 * (level - e.level)))

def ofLinearId (level id : Nat) : Except Fault Quad := do
  require (level ≤ depth)
  require (id < Nat.pow 4 level)
  match ← Morton.decode id 2 level depth with
  | [x, y] => return ⟨x, y, level⟩
  | _ => .error .index

def successor (e : Quad) (level : Nat) : Except Fault Quad := do
  require (1 ≤ level)
  let id ← e.linearId level
  ofLinearId level (id + 1)

def firstDescendant (e : Quad) (level : Nat) : Except Fault Quad := do
  require (e.level ≤ level ∧ level ≤ depth)
  return ⟨e.x, e.y, level⟩

def lastDescendant (e : Quad) (level : Nat) : Except Fault Quad := do
  require (e.level ≤ level ∧ level ≤ depth)
  let h ← e.edgeLen
  let fine ← Coord.cellLen level depth
  let x ← coordinate (e.x + (h - fine))
  let y ← coordinate (e.y + (h - fine))
  return ⟨x, y, level⟩

/-! ## Faces and vertices -/

def faceChildren (face : Nat) : Except Fault (List Nat) :=
  match face with
  | 0 => return [0, 2]
  | 1 => return [1, 3]
  | 2 => return [0, 1]
  | 3 => return [2, 3]
  | _ => .error .index

def childrenAtFace (e : Quad) (face : Nat) : Except Fault (List Quad) := do
  let numbers ← faceChildren face
  numbers.mapM e.child

def faceNeighbor (e : Quad) (face : Nat) : Except Fault (Quad × Nat) := do
  require (face < 4)
  let h ← e.edgeLen
  match face with
  | 0 => do
    let x ← coordinate (e.x - h)
    return ({ e with x }, 1)
  | 1 => do
    let x ← coordinate (e.x + h)
    return ({ e with x }, 0)
  | 2 => do
    let y ← coordinate (e.y - h)
    return ({ e with y }, 3)
  | _ => do
    let y ← coordinate (e.y + h)
    return ({ e with y }, 2)

/-- Every face number from 3 on stands for the top. -/
def isRootBoundary (e : Quad) (face : Nat) : Except Fault Bool := do
  let h ← e.edgeLen
  match face with
  | 0 => return e.x = 0
  | 1 => return e.x = rootLen - h
  | 2 => return e.y = 0
  | _ => return e.y = rootLen - h

def IsInsideRoot (e : Quad) : Prop :=
  (0 ≤ e.x ∧ e.x < rootLen) ∧ 0 ≤ e.y ∧ e.y < rootLen

instance (e : Quad) : Decidable e.IsInsideRoot := inferInstanceAs (Decidable (_ ∧ _))

def vertexCoords (e : Quad) (vertex : Nat) : Except Fault (Int × Int × Int) := do
  require (vertex < 4)
  let h ← e.edgeLen
  return (e.x + (vertex % 2 : Nat) * h, e.y + (vertex / 2 : Nat) * h, 0)

/-! ## Encoding -/

def Valid (e : Quad) : Prop :=
  e.level ≤ depth ∧
    (IsCoordinate e.x ∧ Coord.residue e.x (depth - e.level) = 0) ∧
      IsCoordinate e.y ∧ Coord.residue e.y (depth - e.level) = 0

instance (e : Quad) : Decidable e.Valid := inferInstanceAs (Decidable (_ ∧ _))

def describe (e : Quad) : String :=
  s!"Quad \x7b x: {e.x}, y: {e.y}, level: {e.level} \x7d"

theorem level_child {e c : Quad} {i : Nat} (h : e.child i = .ok c) :
    c.level = e.level + 1 := by
  obtain ⟨_, _, h⟩ := bind_eq_ok_iff.mp h
  obtain ⟨_, _, h⟩ := bind_eq_ok_iff.mp h
  obtain ⟨_, _, h⟩ := bind_eq_ok_iff.mp h
  obtain ⟨_, _, h⟩ := bind_eq_ok_iff.mp h
  cases h
  rfl

instance : Element Quad where
  shape := .quad
  root := root
  level e := return e.level
  parent := parent
  child := child
  childId := childId
  ancestor := ancestor
  isFamily := isFamily
  nca := nca
  linearId := linearId
  ofLinearId := ofLinearId
  successor := successor
  firstDescendant := firstDescendant
  lastDescendant := lastDescendant
  numFaceChildren _ face := do
    require (face < 4)
    return 2
  childrenAtFace := childrenAtFace
  faceChildFace _ face _ := return face
  faceNeighbor := faceNeighbor
  isRootBoundary := isRootBoundary
  isInsideRoot e := return decide e.IsInsideRoot
  treeFace _ face := return face
  vertexCoords := vertexCoords
  rootLen := rootLen
  Valid := Valid
  decideValid := inferInstance
  describe := describe
  level_child h := ⟨_, rfl, congrArg Except.ok (level_child h)⟩

end Quad

end MeshCurve
