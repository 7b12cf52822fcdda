/-!
# Shapes

The five cell shapes, the sizes that belong to a shape as a whole, and the
operations a scheme may offer.  The finest levels are chosen so that a linear id
(`numChildren ^ maxLevel` of them) fits a 64-bit word and an anchor fits 32 bits.
-/

namespace MeshCurve

inductive Shape where
  | line | quad | triangle | tet | prism
deriving DecidableEq, Repr

namespace Shape

def all : List Shape := [line, quad, triangle, tet, prism]

def index : Shape → Nat
  | line => 0
  | quad => 1
  | triangle => 2
  | tet => 3
  | prism => 4

def name : Shape → String
  | line => "line"
  | quad => "quad"
  | triangle => "triangle"
  | tet => "tet"
  | prism => "prism"

/-- Capitalised name, as used in diagnostic text. -/
def label : Shape → String
  | line => "Line"
  | quad => "Quad"
  | triangle => "Triangle"
  | tet => "Tet"
  | prism => "Prism"

def dimension : Shape → Nat
  | line => 1
  | quad | triangle => 2
  | tet | prism => 3

def maxLevel : Shape → Nat
  | line | quad => 30
  | triangle => 29
  | tet | prism => 21

def numChildren : Shape → Nat
  | line => 2
  | quad | triangle => 4
  | tet | prism => 8

def numFaces : Shape → Nat
  | line => 2
  | quad | tet => 4
  | triangle => 3
  | prism => 5

def numVertices : Shape → Nat
  | line => 2
  | quad | tet => 4
  | triangle => 3
  | prism => 6

/-- Congruence types; a prism has those of its triangle. -/
def numTypes : Shape → Nat
  | line | quad => 1
  | triangle | prism => 2
  | tet => 6

/-- Bytes of an element in memory: four for each coordinate, and four for the type
and level of each factor, which share a word. -/
def recordBytes : Shape → Nat
  | line => 8
  | quad | triangle => 12
  | tet => 16
  | prism => 20

/-- The shape of a face; the end points of a line have none. -/
def faceShape? : Shape → Nat → Option Shape
  | line, _ => none
  | quad, _ | triangle, _ => some line
  | tet, _ => some triangle
  | prism, face => some (if face < 3 then quad else triangle)

instance : Ord Shape := ⟨fun a b => compare a.index b.index⟩

def ofName? (name : String) : Option Shape :=
  all.find? (·.name == name)

/-! ## Laws -/

theorem mem_all (s : Shape) : s ∈ all := by
  cases s <;> decide

theorem index_injective {a b : Shape} (h : a.index = b.index) : a = b := by
  cases a <;> cases b <;> simp_all [index]

theorem ofName?_name (s : Shape) : ofName? s.name = some s := by
  cases s <;> rfl

theorem numChildren_pos (s : Shape) : 1 < s.numChildren := by
  cases s <;> decide

theorem numTypes_pos (s : Shape) : 0 < s.numTypes := by
  cases s <;> decide

theorem numChildren_eq_shiftLeft (s : Shape) : s.numChildren = 1 <<< s.dimension := by
  cases s <;> rfl

end Shape

/-- What a scheme may be asked to do with the elements of its shape. -/
inductive Operation where
  | parent | child | children | childrenAtFace | faceNeighbor | isFamily
  | isRootBoundary | linearId | fromLinearId | successor | firstDescendant
  | lastDescendant | vertexCoords | compare | nca | boundaryFace | extrudeFace
deriving DecidableEq, Repr

namespace Operation

def all : List Operation :=
  [parent, child, children, childrenAtFace, faceNeighbor, isFamily, isRootBoundary,
    linearId, fromLinearId, successor, firstDescendant, lastDescendant, vertexCoords,
    compare, nca, boundaryFace, extrudeFace]

def name : Operation → String
  | parent => "parent"
  | child => "child"
  | children => "children"
  | childrenAtFace => "children_at_face"
  | faceNeighbor => "face_neighbor"
  | isFamily => "is_family"
  | isRootBoundary => "is_root_boundary"
  | linearId => "linear_id"
  | fromLinearId => "from_linear_id"
  | successor => "successor"
  | firstDescendant => "first_descendant"
  | lastDescendant => "last_descendant"
  | vertexCoords => "vertex_coords"
  | compare => "compare"
  | nca => "nca"
  | boundaryFace => "boundary_face"
  | extrudeFace => "extrude_face"

def label : Operation → String
  | parent => "Parent"
  | child => "Child"
  | children => "Children"
  | childrenAtFace => "ChildrenAtFace"
  | faceNeighbor => "FaceNeighbor"
  | isFamily => "IsFamily"
  | isRootBoundary => "IsRootBoundary"
  | linearId => "LinearId"
  | fromLinearId => "FromLinearId"
  | successor => "Successor"
  | firstDescendant => "FirstDescendant"
  | lastDescendant => "LastDescendant"
  | vertexCoords => "VertexCoords"
  | compare => "Compare"
  | nca => "Nca"
  | boundaryFace => "BoundaryFace"
  | extrudeFace => "ExtrudeFace"

def ofName? (name : String) : Option Operation :=
  all.find? (·.name == name)

theorem mem_all (op : Operation) : op ∈ all := by
  cases op <;> decide

theorem ofName?_name (op : Operation) : ofName? op.name = some op := by
  cases op <;> rfl

end Operation

/-- The faces of a line are points and those of a tet would have to be turned
into place, so these two shapes have no operations between elements and faces. -/
def Shape.supports (s : Shape) : Operation → Bool
  | .boundaryFace | .extrudeFace => s != .line && s != .tet
  | _ => true

end MeshCurve
