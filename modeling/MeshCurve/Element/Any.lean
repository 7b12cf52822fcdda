import MeshCurve.Cell.Prism
import MeshCurve.Cell.Quad
import MeshCurve.Cell.Tet
import MeshCurve.Scheme.Error

/-!
# Elements of any shape

`Shape.Carrier s` is the type of the elements of shape `s`, and an `AnyElement` is
a shape together with an element of it.  An operation on one element acts inside
its shape; two elements of different shapes are compared by shape and have no
common ancestor.
-/

namespace MeshCurve

abbrev Shape.Carrier : Shape → Type
  | .line => Line
  | .quad => Quad
  | .triangle => Triangle
  | .tet => Tet
  | .prism => Prism

instance instElementCarrier : (s : Shape) → Element s.Carrier
  | .line => inferInstanceAs (Element Line)
  | .quad => inferInstanceAs (Element Quad)
  | .triangle => inferInstanceAs (Element Triangle)
  | .tet => inferInstanceAs (Element Tet)
  | .prism => inferInstanceAs (Element Prism)

instance instDecidableEqCarrier : (s : Shape) → DecidableEq s.Carrier
  | .line => inferInstanceAs (DecidableEq Line)
  | .quad => inferInstanceAs (DecidableEq Quad)
  | .triangle => inferInstanceAs (DecidableEq Triangle)
  | .tet => inferInstanceAs (DecidableEq Tet)
  | .prism => inferInstanceAs (DecidableEq Prism)

theorem shape_carrier (s : Shape) : Element.shape s.Carrier = s := by
  cases s <;> rfl

structure AnyElement where
  shape : Shape
  element : shape.Carrier

namespace AnyElement

/-- The element as one of shape `s`, if that is its shape. -/
def as? (s : Shape) (e : AnyElement) : Option s.Carrier :=
  if h : e.shape = s then some (h ▸ e.element) else none

instance : DecidableEq AnyElement := fun ⟨s, a⟩ ⟨t, b⟩ =>
  if h : s = t then by
    subst h
    exact if h : a = b then isTrue (by rw [h]) else isFalse (by simpa using h)
  else isFalse fun eq => h (congrArg shape eq)

@[simp] theorem as?_mk (s : Shape) (x : s.Carrier) : as? s ⟨s, x⟩ = some x := by
  simp [as?]

theorem as?_eq_some_iff {s : Shape} {e : AnyElement} {x : s.Carrier} :
    e.as? s = some x ↔ e = ⟨s, x⟩ := by
  constructor
  · intro h
    obtain ⟨t, y⟩ := e
    by_cases hs : t = s
    · subst hs
      simpa [as?] using h
    · simp [as?, hs] at h
  · rintro rfl
    exact as?_mk s x

theorem as?_eq_none_iff {s : Shape} {e : AnyElement} :
    e.as? s = none ↔ e.shape ≠ s := by
  unfold as?
  split <;> simp [*]

/-! ## One element -/

def level (e : AnyElement) : Except Fault Nat := Element.level e.element

def childId (e : AnyElement) : Except Fault Nat := Element.childId e.element

def numChildren (e : AnyElement) : Nat := e.shape.numChildren

def parent (e : AnyElement) : Except Fault AnyElement := do
  let p ← Element.parent e.element
  return ⟨e.shape, p⟩

def child (e : AnyElement) (i : Nat) : Except Fault AnyElement := do
  let c ← Element.child e.element i
  return ⟨e.shape, c⟩

def children (e : AnyElement) : Except Fault (List AnyElement) := do
  let cs ← Element.children e.element
  return cs.map (⟨e.shape, ·⟩)

def childrenAtFace (e : AnyElement) (face : Nat) : Except Fault (List AnyElement) := do
  let cs ← Element.childrenAtFace e.element face
  return cs.map (⟨e.shape, ·⟩)

def faceNeighbor (e : AnyElement) (face : Nat) : Except Fault (AnyElement × Nat) := do
  let (n, dual) ← Element.faceNeighbor e.element face
  return (⟨e.shape, n⟩, dual)

def isRootBoundary (e : AnyElement) (face : Nat) : Except Fault Bool :=
  Element.isRootBoundary e.element face

def linearId (e : AnyElement) (level : Nat) : Except Fault Nat :=
  Element.linearId e.element level

def successor (e : AnyElement) (level : Nat) : Except Fault AnyElement := do
  let next ← Element.successor e.element level
  return ⟨e.shape, next⟩

def firstDescendant (e : AnyElement) (level : Nat) : Except Fault AnyElement := do
  let d ← Element.firstDescendant e.element level
  return ⟨e.shape, d⟩

def lastDescendant (e : AnyElement) (level : Nat) : Except Fault AnyElement := do
  let d ← Element.lastDescendant e.element level
  return ⟨e.shape, d⟩

def vertexCoords (e : AnyElement) (v : Nat) : Except Fault (Int × Int × Int) :=
  Element.vertexCoords e.element v

def Valid (e : AnyElement) : Prop := Element.Valid e.element

instance (e : AnyElement) : Decidable e.Valid :=
  inferInstanceAs (Decidable (Element.Valid e.element))

def describe (e : AnyElement) : String :=
  s!"{e.shape.label}({Element.describe e.element})"

/-! ## Several elements -/

/-- Curve order within a shape, and the order of the shapes otherwise. -/
def compare (a b : AnyElement) : Except Fault Ordering :=
  match b.as? a.shape with
  | some y => Element.compare a.element y
  | none => return Ord.compare a.shape b.shape

def nca (a b : AnyElement) : Except Fault (Option AnyElement) :=
  match b.as? a.shape with
  | some y => do
    let c ← Element.nca a.element y
    return some ⟨a.shape, c⟩
  | none => return none

/-- Whether the elements have one shape and are the children of one parent. -/
def isFamily : List AnyElement → Except Fault Bool
  | [] => return false
  | family@(first :: _) =>
    match family.mapM (as? first.shape) with
    | some elements => Element.isFamily elements
    | none => return false

end AnyElement

end MeshCurve
