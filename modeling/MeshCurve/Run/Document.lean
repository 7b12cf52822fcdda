import MeshCurve.Run.Value

/-!
# Configurations as documents

The shape that a configuration has when it is written down.  A table that is a field
stands under a heading, the path of names that leads to it, and so does each table
of a list that holds nothing else.  Any other value is written in its place, brackets
within brackets.  Neither a path nor brackets may go deeper than `maxNesting`, and
`isWritable` says which values keep to that.
-/

namespace MeshCurve.Run.Value

/-- The longest path in a heading, and the most brackets around a value. -/
def maxNesting : Nat := 79

mutual

/-- Lists and tables around the innermost part of a value, itself included. -/
def depth : Value → Nat
  | list items => itemsDepth items + 1
  | table fields => fieldsDepth fields + 1
  | string _ | int _ | float | bool _ => 0

def itemsDepth : List Value → Nat
  | [] => 0
  | v :: rest => max v.depth (itemsDepth rest)

def fieldsDepth : List (String × Value) → Nat
  | [] => 0
  | (_, v) :: rest => max v.depth (fieldsDepth rest)

end

/-- Whether the items of a list are tables, which then stand under headings. -/
def areHeaded (items : List Value) : Bool :=
  !items.isEmpty && items.all fun v => v.table?.isSome

mutual

/-- Whether a value can be written where a path of the given length leads. -/
def fits (path : Nat) : Value → Bool
  | table fields => decide (path ≤ maxNesting) && fieldsFit (path + 1) fields
  | list items =>
    if areHeaded items then itemsFit path items else decide (itemsDepth items < maxNesting)
  | string _ | int _ | float | bool _ => true

def itemsFit (path : Nat) : List Value → Bool
  | [] => true
  | v :: rest => v.fits path && itemsFit path rest

def fieldsFit (path : Nat) : List (String × Value) → Bool
  | [] => true
  | (_, v) :: rest => v.fits path && fieldsFit path rest

end

def isWritable (v : Value) : Bool := v.fits 0

end MeshCurve.Run.Value
