import MeshCurve.Digit.Coord
import MeshCurve.Element.Basic

/-!
# Lines

The cells of an interval, halved at every level.  The linear id of a line is its
anchor without the digits finer than the level asked for.
-/

namespace MeshCurve

/-- `x` is the left end point, in units of the finest line. -/
structure Line where
  x : Int
  level : Nat
deriving DecidableEq, Repr

namespace Line

abbrev depth : Nat := Shape.line.maxLevel

def rootLen : Int := 0x40000000

def edgeLen (e : Line) : Except Fault Int := Coord.cellLen e.level depth

/-! ## Tree -/

def root : Line := ⟨0, 0⟩

def parent (e : Line) : Except Fault Line := do
  require (0 < e.level)
  let x ← Coord.withDigit e.x e.level depth 0
  return ⟨x, e.level - 1⟩

def child (e : Line) (i : Nat) : Except Fault Line := do
  require (i < 2)
  require (e.level < depth)
  let x ← Coord.withDigit e.x (e.level + 1) depth i
  return ⟨x, e.level + 1⟩

def childId (e : Line) : Except Fault Nat := Coord.digit e.x e.level depth

def ancestor (e : Line) (level : Nat) : Except Fault Line := do
  require (level ≤ e.level)
  Element.climb parent (e.level - level) e

/-- Two halves of one line: the first starts it, the second starts where the
first one ends. -/
def isFamily : List Line → Except Fault Bool
  | [a, b] =>
    if 0 < a.level ∧ a.level = b.level then do
      let i ← a.childId
      if i = 0 then
        let h ← a.edgeLen
        let x ← coordinate (a.x + h)
        return b.x = x
      else return false
    else return false
  | _ => return false

def nca (a b : Line) : Except Fault Line := do
  let level := min (min a.level b.level) (Coord.commonLevel a.x b.x depth)
  let x ← Coord.cutToLevel a.x level depth
  return ⟨x, level⟩

/-! ## Curve -/

/-- A negative anchor gives a negative id, read as a 64-bit word. -/
def linearId (e : Line) (level : Nat) : Except Fault Nat := do
  require (level ≤ depth)
  return toWord (e.x >>> (depth - level))

def ofLinearId (level id : Nat) : Except Fault Line := do
  require (level ≤ depth)
  require (id < Nat.pow 2 level)
  return ⟨(id <<< (depth - level) : Nat), level⟩

def successor (e : Line) (level : Nat) : Except Fault Line := do
  require (1 ≤ level)
  let id ← e.linearId level
  ofLinearId level (id + 1)

def firstDescendant (e : Line) (level : Nat) : Except Fault Line := do
  require (e.level ≤ level ∧ level ≤ depth)
  return ⟨e.x, level⟩

def lastDescendant (e : Line) (level : Nat) : Except Fault Line := do
  require (e.level ≤ level ∧ level ≤ depth)
  let h ← e.edgeLen
  let fine ← Coord.cellLen level depth
  let stop ← coordinate (e.x + h)
  let x ← coordinate (stop - fine)
  return ⟨x, level⟩

/-! ## Faces and vertices -/

def childrenAtFace (e : Line) (face : Nat) : Except Fault (List Line) := do
  require (face < 2)
  let c ← e.child face
  return [c]

def faceNeighbor (e : Line) (face : Nat) : Except Fault (Line × Nat) := do
  require (face < 2)
  let h ← e.edgeLen
  let x ← coordinate (if face = 0 then e.x - h else e.x + h)
  return (⟨x, e.level⟩, 1 - face)

def isRootBoundary (e : Line) (face : Nat) : Except Fault Bool := do
  require (face < 2)
  if face = 0 then return e.x = 0 else
    let h ← e.edgeLen
    return e.x = rootLen - h

def IsInsideRoot (e : Line) : Prop := 0 ≤ e.x ∧ e.x < rootLen

instance (e : Line) : Decidable e.IsInsideRoot := inferInstanceAs (Decidable (_ ∧ _))

def vertexCoords (e : Line) (vertex : Nat) : Except Fault (Int × Int × Int) := do
  require (vertex < 2)
  let h ← e.edgeLen
  return (e.x + vertex * h, 0, 0)

/-! ## Encoding -/

def Valid (e : Line) : Prop :=
  e.level ≤ depth ∧ IsCoordinate e.x ∧ Coord.residue e.x (depth - e.level) = 0

instance (e : Line) : Decidable e.Valid := inferInstanceAs (Decidable (_ ∧ _))

def describe (e : Line) : String := s!"Line \x7b x: {e.x}, level: {e.level} \x7d"

theorem level_child {e c : Line} {i : Nat} (h : e.child i = .ok c) :
    c.level = e.level + 1 := by
  obtain ⟨_, _, h⟩ := bind_eq_ok_iff.mp h
  obtain ⟨_, _, h⟩ := bind_eq_ok_iff.mp h
  obtain ⟨_, _, h⟩ := bind_eq_ok_iff.mp h
  cases h
  rfl

instance : Element Line where
  shape := .line
  root := root
  level e := return e.level
  parent := parent
  child := child
  childId := childId
  ancestor := ancestor
  isFamily := isFamily
  nca := nca
  linearId := linearId
  ofLinearId := ofLinearId
  successor := successor
  firstDescendant := firstDescendant
  lastDescendant := lastDescendant
  numFaceChildren _ face := do
    require (face < 2)
    return 1
  childrenAtFace := childrenAtFace
  faceChildFace _ face _ := return face
  faceNeighbor := faceNeighbor
  isRootBoundary := isRootBoundary
  isInsideRoot e := return decide e.IsInsideRoot
  treeFace _ face := return face
  vertexCoords := vertexCoords
  rootLen := rootLen
  Valid := Valid
  decideValid := inferInstance
  describe := describe
  level_child h := ⟨_, rfl, congrArg Except.ok (level_child h)⟩

end Line

end MeshCurve
