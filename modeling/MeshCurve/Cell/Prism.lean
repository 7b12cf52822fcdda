import MeshCurve.Cell.Line
import MeshCurve.Cell.Triangle
import MeshCurve.Digit.Radix

/-!
# Prisms

A prism is a triangle times a line, the two at one level.  Each operation is put
together from those of the factors: a child has the number `t + 4 * l` when its
triangle is child `t` and its line child `l`, and ids are composed in the same way
digit by digit.  Faces 0 to 2 stand on the sides of the triangle, 3 is the bottom
and 4 the top.

The factors keep their own depths; only the level is bounded for the prism.
-/

namespace MeshCurve

structure Prism where
  tri : Triangle
  line : Line
deriving DecidableEq, Repr

namespace Prism

abbrev depth : Nat := Shape.prism.maxLevel

def rootLen : Int := 0x200000

def bottom : Nat := 3

def top : Nat := 4

/-- Combines two factors of one level. -/
def ofFactors (tri : Triangle) (line : Line) : Except Fault Prism := do
  require (tri.level = line.level)
  require (tri.level ≤ depth)
  return ⟨tri, line⟩

def level (e : Prism) : Except Fault Nat := do
  require (e.tri.level = e.line.level)
  return e.tri.level

/-! ## Tree -/

def root : Prism := ⟨Triangle.root, Line.root⟩

def parent (e : Prism) : Except Fault Prism := do
  let tri ← Kuhn.parent e.tri
  let line ← e.line.parent
  ofFactors tri line

def child (e : Prism) (i : Nat) : Except Fault Prism := do
  require (i < 8)
  let l ← e.level
  require (l < depth)
  let tri ← Kuhn.child e.tri (i % 4)
  let line ← e.line.child (i / 4)
  ofFactors tri line

def childId (e : Prism) : Except Fault Nat := do
  let t ← Kuhn.childId e.tri
  let l ← e.line.childId
  return t + 4 * l

def ancestor (e : Prism) (level : Nat) : Except Fault Prism := do
  let tri ← Kuhn.ancestor e.tri level
  let line ← e.line.ancestor level
  ofFactors tri line

/-- Four prisms over one line whose triangles are a family. -/
def isPlane (plane : List Prism) : Except Fault Bool := do
  if ← Kuhn.isFamily (plane.map tri) then
    return ∀ p ∈ plane, some p.line = plane.head?.map line
  else return false

/-- Two prisms over one triangle whose lines are a family. -/
def isColumn (lower upper : Prism) : Except Fault Bool :=
  if lower.tri = upper.tri then Line.isFamily [lower.line, upper.line] else return false

/-- Eight prisms of one level, the planes of which are families of triangles and
the columns families of lines. -/
def isFamily (family : List Prism) : Except Fault Bool :=
  if family.length ≠ 8 then return false else
    match family with
    | [] => .error .index
    | first :: _ => do
      let l ← first.level
      if l = 0 then return false else
        if ← family.anyM fun p => do return (← p.level) ≠ l then return false else
          let lower := family.take 4
          let upper := family.drop 4
          let planes ← [lower, upper].allM isPlane
          let columns ← (lower.zip upper).allM fun (p, q) => isColumn p q
          return planes && columns

def nca (a b : Prism) : Except Fault Prism := do
  let tri ← Kuhn.nca a.tri b.tri
  let line ← a.line.nca b.line
  let level := min tri.level line.level
  let tri ← Kuhn.ancestor tri level
  let line ← line.ancestor level
  ofFactors tri line

/-! ## Curve -/

def linearId (e : Prism) (level : Nat) : Except Fault Nat := do
  require (level ≤ depth)
  let t ← Kuhn.linearId e.tri level
  let l ← e.line.linearId level
  Radix.interleave t 4 l 2 level

def ofLinearId (level id : Nat) : Except Fault Prism := do
  require (level ≤ depth)
  require (id < Nat.pow 8 level)
  let (t, l) ← Radix.deinterleave id 4 2 level
  let tri ← Kuhn.ofLinearId level t
  let line ← Line.ofLinearId level l
  ofFactors tri line

def firstDescendant (e : Prism) (level : Nat) : Except Fault Prism := do
  let tri ← Kuhn.firstDescendant e.tri level
  let line ← e.line.firstDescendant level
  ofFactors tri line

def lastDescendant (e : Prism) (level : Nat) : Except Fault Prism := do
  let tri ← Kuhn.lastDescendant e.tri level
  let line ← e.line.lastDescendant level
  ofFactors tri line

/-- Goes up past every last child. -/
def climbLast : (level : Nat) → Prism → Except Fault Prism
  | 0, _ => .error .contract
  | l + 1, e => do
    let i ← e.childId
    if i = 7 then
      let own ← e.level
      require (1 < own)
      let p ← e.parent
      climbLast l p
    else return e

/-- Climbs to the first prism that has a next sibling, takes the sibling, and
goes down to its first descendant. -/
def successor (e : Prism) (level : Nat) : Except Fault Prism := do
  require (1 ≤ level ∧ level ≤ depth)
  let own ← e.level
  let start ← if level ≤ own then e.ancestor level else e.firstDescendant level
  let turn ← climbLast level start
  let p ← turn.parent
  let i ← turn.childId
  let next ← p.child (i + 1)
  next.firstDescendant level

/-! ## Faces and vertices -/

def childrenAtFace (e : Prism) (face : Nat) : Except Fault (List Prism) := do
  require (face < 5)
  match face with
  | 3 => (List.range 4).mapM e.child
  | 4 => (List.range' 4 4).mapM e.child
  | _ => do
    let tris ← e.tri.childrenAtFace face
    let lower ← e.line.child 0
    let lowerPrisms ← tris.mapM (ofFactors · lower)
    let upper ← e.line.child 1
    let upperPrisms ← tris.mapM (ofFactors · upper)
    return lowerPrisms ++ upperPrisms

def faceNeighbor (e : Prism) (face : Nat) : Except Fault (Prism × Nat) := do
  require (face < 5)
  match face with
  | 3 => do
    let (line, _) ← e.line.faceNeighbor 0
    let n ← ofFactors e.tri line
    return (n, top)
  | 4 => do
    let (line, _) ← e.line.faceNeighbor 1
    let n ← ofFactors e.tri line
    return (n, bottom)
  | _ => do
    let (tri, dual) ← e.tri.faceNeighbor face
    let n ← ofFactors tri e.line
    return (n, dual)

def isRootBoundary (e : Prism) (face : Nat) : Except Fault Bool := do
  require (face < 5)
  match face with
  | 3 => e.line.isRootBoundary 0
  | 4 => e.line.isRootBoundary 1
  | _ => e.tri.isRootBoundary face

def isInsideRoot (e : Prism) : Except Fault Bool := do
  if ← e.tri.isInsideRoot then return e.line.IsInsideRoot else return false

def treeFace (e : Prism) (face : Nat) : Except Fault Nat :=
  if face < bottom then e.tri.treeFace face else return face

/-- Triangle vertex `v % 3` over line vertex `v / 3`, in units of the finest prism. -/
def vertexCoords (e : Prism) (v : Nat) : Except Fault (Int × Int × Int) := do
  require (v < 6)
  let (x, y, _) ← e.tri.vertexCoords (v % 3)
  let (z, _, _) ← e.line.vertexCoords (v / 3)
  return (x >>> (Triangle.depth - depth), y >>> (Triangle.depth - depth),
    z >>> (Line.depth - depth))

/-! ## Encoding -/

def Valid (e : Prism) : Prop :=
  e.tri.level = e.line.level ∧ e.tri.level ≤ depth ∧ Kuhn.Valid e.tri ∧ e.line.Valid

instance (e : Prism) : Decidable e.Valid := inferInstanceAs (Decidable (_ ∧ _))

def describe (e : Prism) : String :=
  s!"Prism \x7b tri: {e.tri.describe}, line: {e.line.describe} \x7d"

theorem level_eq_ok_of_eq {e : Prism} (h : e.tri.level = e.line.level) :
    e.level = .ok e.tri.level := by
  rw [level, require_of_true h]
  rfl

theorem ofFactors_eq_ok_iff {tri : Triangle} {line : Line} {e : Prism} :
    ofFactors tri line = .ok e ↔ tri.level = line.level ∧ tri.level ≤ depth ∧ e = ⟨tri, line⟩ := by
  constructor
  · intro h
    obtain ⟨same, h⟩ := of_require_bind h
    obtain ⟨fits, h⟩ := of_require_bind h
    cases h
    exact ⟨same, fits, rfl⟩
  · rintro ⟨same, fits, rfl⟩
    rw [ofFactors, require_of_true same, ok_bind, require_of_true fits, ok_bind, pure_eq_ok]

theorem level_child {e c : Prism} {i : Nat} (h : e.child i = .ok c) :
    ∃ l, e.level = .ok l ∧ c.level = .ok (l + 1) := by
  obtain ⟨_, _, h⟩ := bind_eq_ok_iff.mp h
  obtain ⟨l, hl, h⟩ := bind_eq_ok_iff.mp h
  obtain ⟨_, _, h⟩ := bind_eq_ok_iff.mp h
  obtain ⟨tri, ht, h⟩ := bind_eq_ok_iff.mp h
  obtain ⟨line, _, h⟩ := bind_eq_ok_iff.mp h
  obtain ⟨hlevel, _, rfl⟩ := ofFactors_eq_ok_iff.mp h
  obtain ⟨_, _, hl'⟩ := bind_eq_ok_iff.mp hl
  cases hl'
  refine ⟨_, hl, ?_⟩
  rw [level_eq_ok_of_eq hlevel, Triangle.level_child ht]

instance : Element Prism where
  shape := .prism
  root := root
  level := level
  parent := parent
  child := child
  childId := childId
  ancestor := ancestor
  isFamily := isFamily
  nca := nca
  linearId := linearId
  ofLinearId := ofLinearId
  successor := successor
  firstDescendant := firstDescendant
  lastDescendant := lastDescendant
  numFaceChildren _ face := do
    require (face < 5)
    return 4
  childrenAtFace := childrenAtFace
  faceChildFace _ face _ := return face
  faceNeighbor := faceNeighbor
  isRootBoundary := isRootBoundary
  isInsideRoot := isInsideRoot
  treeFace := treeFace
  vertexCoords := vertexCoords
  rootLen := rootLen
  Valid := Valid
  decideValid := inferInstance
  describe := describe
  level_child := level_child

end Prism

end MeshCurve
