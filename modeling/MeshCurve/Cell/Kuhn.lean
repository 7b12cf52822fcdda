import MeshCurve.Digit.Coord
import MeshCurve.Element.Basic

/-!
# Kuhn simplices

A cube is split along its main diagonal into simplices, one for each order of the
axes, and the congruence type says which of them a simplex is.  Red refinement is
described by four tables: a child is known by the cube it sits in and its type,
and is numbered by its position when the children are sorted by these two.

`Kuhn K` holds what a dimension has to supply.  Navigation follows the types up
or down the tree, one table entry per level.
-/

namespace MeshCurve

/-- Rows of a table indexed by two small numbers. -/
abbrev Table := List (List Nat)

def Table.entry (table : Table) (i j : Nat) : Except Fault Nat :=
  match table[i]? with
  | none => .error .index
  | some row =>
    match row[j]? with
    | none => .error .index
    | some n => .ok n

class Kuhn (K : Type) where
  shape : Shape
  root : K
  level : K → Nat
  type : K → Nat
  /-- the anchor, axis by axis -/
  coords : K → List Int
  mapCoords : (f : (axis : Nat) → Int → Int) → K → K
  retype : K → (type level : Nat) → K
  /-- type of the parent, by cube and type of the child -/
  parentTypes : Table
  /-- number of the child, by its type and cube -/
  localIndices : Table
  /-- cube of the child, by type of the parent and number of the child -/
  childCubes : Table
  /-- type of the child, by type of the parent and number of the child -/
  childTypes : Table

namespace Kuhn

variable {K : Type} [Kuhn K]

abbrev depth (K : Type) [Kuhn K] : Nat := (shape K).maxLevel

/-! ## Cubes -/

def cubeId (e : K) (level : Nat) : Except Fault Nat :=
  Coord.cubeId (coords e) level (depth K)

def withCubeId (e : K) (level cube : Nat) : Except Fault K := do
  let k ← Coord.place level (depth K)
  return mapCoords (fun axis c => Coord.setBit c k (cube >>> axis % 2)) e

def cut (e : K) (level : Nat) : Except Fault K := do
  let k ← Coord.finerPlace level (depth K)
  return mapCoords (fun _ c => Coord.clearBelow c k) e

/-! ## Tree -/

def parent (e : K) : Except Fault K := do
  require (0 < level e)
  let cube ← cubeId e (level e)
  let type ← (parentTypes K).entry cube (type e)
  let corner ← withCubeId e (level e) 0
  return retype corner type (level e - 1)

def child (e : K) (i : Nat) : Except Fault K := do
  require (i < (shape K).numChildren)
  require (level e < depth K)
  let cube ← (childCubes K).entry (type e) i
  let corner ← withCubeId e (level e + 1) cube
  let type ← (childTypes K).entry (type e) i
  return retype corner type (level e + 1)

def childId (e : K) : Except Fault Nat :=
  if level e = 0 then return 0 else do
    let cube ← cubeId e (level e)
    (localIndices K).entry (type e) cube

/-- Type reached from `type` by going up from the first level to the second. -/
def typeFrom (e : K) (type target : Nat) : (level : Nat) → Except Fault Nat
  | 0 => return type
  | l + 1 =>
    if l + 1 ≤ target then return type else do
      let cube ← cubeId e (l + 1)
      let type ← (parentTypes K).entry cube type
      typeFrom e type target l

def typeAt (e : K) (level : Nat) : Except Fault Nat := do
  require (level ≤ Kuhn.level e)
  typeFrom e (type e) level (Kuhn.level e)

def ancestor (e : K) (level : Nat) : Except Fault K := do
  let type ← typeAt e level
  let corner ← cut e level
  return retype corner type level

def isFamily [DecidableEq K] (family : List K) : Except Fault Bool :=
  if family.length ≠ (shape K).numChildren then return false else
    match family with
    | [] => .error .index
    | first :: _ =>
      if level first = 0 then return false else do
        let p ← parent first
        let siblings ← (List.range (shape K).numChildren).mapM (child p)
        return family = siblings

/-- Climbs from two simplices of one level in one cube until they agree. -/
def meet : (level : Nat) → K → K → Except Fault K
  | 0, a, b => if type a = type b then return a else .error .contract
  | l + 1, a, b =>
    if type a = type b then return a else do
      let a ← parent a
      let b ← parent b
      meet l a b

def nca (a b : K) : Except Fault K := do
  let shared := ((coords a).zip (coords b)).map fun (x, y) => Coord.commonLevel x y (depth K)
  let common := shared.foldl min (min (level a) (level b))
  let a ← ancestor a common
  let b ← ancestor b common
  meet common a b

/-! ## Curve -/

/-- Collects the digits of an id from level `l` upwards; digits finer than the
target are left out. -/
def idFrom (e : K) (target : Nat) : (l type id : Nat) → Except Fault Nat
  | 0, _, id => return id
  | l + 1, type, id => do
    let cube ← cubeId e (l + 1)
    let id ← if l + 1 ≤ target then do
        let i ← (localIndices K).entry type cube
        pure (id + i <<< ((shape K).dimension * (min target (level e) - (l + 1))))
      else pure id
    let type ← (parentTypes K).entry cube type
    idFrom e target l type id

def linearId (e : K) (target : Nat) : Except Fault Nat := do
  require (target ≤ depth K)
  let id ← idFrom e target (level e) (type e) 0
  return id <<< ((shape K).dimension * (target - level e))

/-- Goes down from `e`, taking the digits of `id` for the given levels. -/
def descend (level id : Nat) : (levels : List Nat) → K → Except Fault K
  | [], e => return e
  | l :: levels, e => do
    let i := id >>> ((shape K).dimension * (level - l)) % (shape K).numChildren
    let cube ← (childCubes K).entry (type e) i
    let corner ← withCubeId e l cube
    let type ← (childTypes K).entry (type e) i
    descend level id levels (retype corner type l)

def ofLinearId (level id : Nat) : Except Fault K := do
  require (level ≤ depth K)
  require (id < (shape K).numChildren.pow level)
  descend level id (List.range' 1 level) root

/-- The level at which the next simplex turns off, going up from `level` past
every last child: its parent's type there and the number of the child left. -/
def carry (e : K) : (l type : Nat) → Except Fault (Nat × Nat × Nat)
  | 0, _ => .error .contract
  | l + 1, type => do
    let cube ← cubeId e (l + 1)
    let i ← (localIndices K).entry type cube
    let parentType ← (parentTypes K).entry cube type
    if i + 1 ≠ (shape K).numChildren then return (l + 1, parentType, i)
    else carry e l parentType

def successor (e : K) (target : Nat) : Except Fault K := do
  require (1 ≤ target ∧ target ≤ depth K)
  let start ← if target ≤ level e then ancestor e target
    else pure (retype e (type e) target)
  let (l, parentType, i) ← carry start target (type start)
  let corner ← cut start (l - 1)
  let cube ← (childCubes K).entry parentType (i + 1)
  let corner ← withCubeId corner l cube
  let type ← (childTypes K).entry parentType (i + 1)
  return retype corner type target

def firstDescendant (e : K) (target : Nat) : Except Fault K := do
  require (level e ≤ target ∧ target ≤ depth K)
  return retype e (type e) target

/-- The last child has the type of its parent and lies in the far cube, so the
last descendant is a shift along the diagonal. -/
def lastDescendant (e : K) (target : Nat) : Except Fault K := do
  require (level e ≤ target ∧ target ≤ depth K)
  let h ← Coord.cellLen (level e) (depth K)
  let fine ← Coord.cellLen target (depth K)
  let _ ← (coords e).mapM fun c => coordinate (c + (h - fine))
  return retype (mapCoords (fun _ c => c + (h - fine)) e) (type e) target

/-! ## Encoding -/

def Valid (e : K) : Prop :=
  level e ≤ depth K ∧ type e < (shape K).numTypes ∧
    ∀ c ∈ coords e, IsCoordinate c ∧ Coord.residue c (depth K - level e) = 0

instance (e : K) : Decidable (Valid e) := inferInstanceAs (Decidable (_ ∧ _))

end Kuhn

end MeshCurve
