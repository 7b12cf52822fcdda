/-!
# Configuration values

The data that a configuration is made of, whatever notation it was written in,
and the readers that turn a value into a number, a text or a list.  A reader gives
`none` for a value of another kind or out of range.
-/

namespace MeshCurve.Run

inductive Value where
  | string (s : String)
  | int (n : Int)
  /-- any other number, which nothing here reads -/
  | float
  | bool (b : Bool)
  | list (items : List Value)
  | table (fields : List (String × Value))
deriving Repr, Inhabited

namespace Value

/-- Integers are signed 64-bit numbers throughout. -/
def InRange (n : Int) : Prop := -0x8000000000000000 ≤ n ∧ n < 0x8000000000000000

instance (n : Int) : Decidable (InRange n) := inferInstanceAs (Decidable (_ ∧ _))

/-- The value of a whole number; one that is out of range is any other number. -/
def ofInt (n : Int) : Value := if InRange n then int n else float

/-! ## Readers -/

def string? : Value → Option String
  | string s => some s
  | _ => none

def bool? : Value → Option Bool
  | bool b => some b
  | _ => none

def natBelow? (bound : Nat) : Value → Option Nat
  | int n => if 0 ≤ n ∧ n < bound then some n.toNat else none
  | _ => none

def list? : Value → Option (List Value)
  | list items => some items
  | _ => none

def table? : Value → Option (List (String × Value))
  | table fields => some fields
  | _ => none

def isEmpty : Value → Bool
  | list items => items.isEmpty
  | table fields => fields.isEmpty
  | string _ | int _ | float | bool _ => false

/-- The name of an alternative, alone or as the only field of a table, with nothing in
it. -/
def choice? : Value → Option String
  | string s => some s
  | table [(name, v)] => if v.isEmpty then some name else none
  | _ => none

def required {α : Type} (fields : List (String × Value)) (name : String)
    (read : Value → Option α) : Option α :=
  match fields.lookup name with
  | some v => read v
  | none => none

def optional {α : Type} (fields : List (String × Value)) (name : String) (default : α)
    (read : Value → Option α) : Option α :=
  match fields.lookup name with
  | some v => read v
  | none => some default

end Value

end MeshCurve.Run
