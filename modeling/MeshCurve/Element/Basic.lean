import MeshCurve.Fault
import MeshCurve.Shape

/-!
# Elements

`Element E` says that the values of `E` are the cells of one shape: nodes of a
refinement tree, visited in the order of a space-filling curve, and glued to one
another along numbered faces.  The shapes supply the fields; what follows from
them for every shape is defined here once.
-/

namespace MeshCurve

class Element (E : Type) where
  shape : Shape
  -- the refinement tree
  root : E
  level : E → Except Fault Nat
  parent : E → Except Fault E
  child : E → (i : Nat) → Except Fault E
  childId : E → Except Fault Nat
  ancestor : E → (level : Nat) → Except Fault E
  isFamily : List E → Except Fault Bool
  nca : E → E → Except Fault E
  -- the curve
  linearId : E → (level : Nat) → Except Fault Nat
  ofLinearId : (level id : Nat) → Except Fault E
  successor : E → (level : Nat) → Except Fault E
  firstDescendant : E → (level : Nat) → Except Fault E
  lastDescendant : E → (level : Nat) → Except Fault E
  -- faces and vertices
  numFaceChildren : E → (face : Nat) → Except Fault Nat
  childrenAtFace : E → (face : Nat) → Except Fault (List E)
  faceChildFace : E → (face k : Nat) → Except Fault Nat
  faceNeighbor : E → (face : Nat) → Except Fault (E × Nat)
  isRootBoundary : E → (face : Nat) → Except Fault Bool
  isInsideRoot : E → Except Fault Bool
  treeFace : E → (face : Nat) → Except Fault Nat
  vertexCoords : E → (vertex : Nat) → Except Fault (Int × Int × Int)
  rootLen : Int
  -- encoding
  Valid : E → Prop
  decideValid : (e : E) → Decidable (Valid e)
  describe : E → String
  level_child : ∀ {e c : E} {i : Nat}, child e i = .ok c →
    ∃ l, level e = .ok l ∧ level c = .ok (l + 1)

namespace Element

variable {E : Type} [Element E]

instance (e : E) : Decidable (Valid e) := decideValid e

/-! ## Tree -/

def children (e : E) : Except Fault (List E) :=
  (List.range (shape E).numChildren).mapM (child e)

def sibling (e : E) (i : Nat) : Except Fault E := do
  let l ← level e
  require (0 < l)
  let p ← parent e
  child p i

def climb (parent : E → Except Fault E) : Nat → E → Except Fault E
  | 0, e => return e
  | n + 1, e => do
    let p ← parent e
    climb parent n p

/-- Whether `a` is `b` or one of its ancestors. -/
def isAncestor [DecidableEq E] (a b : E) : Except Fault Bool := do
  let la ← level a
  let lb ← level b
  if la ≤ lb then
    let c ← ancestor b la
    return c = a
  else return false

/-! ## Curve -/

/-- Curve order.  Ids are compared at the finer of the two levels, and of two
elements with one id the coarser comes first. -/
def compare (a b : E) : Except Fault Ordering := do
  let la ← level a
  let lb ← level b
  let ia ← linearId a (max la lb)
  let ib ← linearId b (max la lb)
  return (Ord.compare ia ib).then (Ord.compare la lb)

/-! ## Faces and vertices -/

/-- The neighbour across a face, unless it lies outside the root. -/
def faceNeighborInside (e : E) (face : Nat) : Except Fault (Option (E × Nat)) := do
  let neighbor ← faceNeighbor e face
  let inside ← isInsideRoot neighbor.1
  return if inside then some neighbor else none

/-- A vertex in units of the root's edge length. -/
def vertexReferenceCoords (e : E) (vertex : Nat) : Except Fault (Float × Float × Float) := do
  let (x, y, z) ← vertexCoords e vertex
  let scale := Float.ofInt (rootLen E)
  return (Float.ofInt x / scale, Float.ofInt y / scale, Float.ofInt z / scale)

/-! ## Laws of children -/

theorem length_children {e : E} {cs : List E} (h : children e = .ok cs) :
    cs.length = (shape E).numChildren := by
  simpa using length_of_mapM_eq_ok h

theorem exists_child_of_mem_children {e c : E} {cs : List E} (h : children e = .ok cs)
    (hc : c ∈ cs) : ∃ i, child e i = .ok c := by
  obtain ⟨i, _, hi⟩ := exists_of_mem_of_mapM_eq_ok h hc
  exact ⟨i, hi⟩

theorem level_of_mem_children {e c : E} {cs : List E} (h : children e = .ok cs)
    (hc : c ∈ cs) : ∃ l, level e = .ok l ∧ level c = .ok (l + 1) := by
  obtain ⟨i, hi⟩ := exists_child_of_mem_children h hc
  exact level_child hi

end Element

end MeshCurve
