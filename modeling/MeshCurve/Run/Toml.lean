import MeshCurve.Run.Value

/-!
# Configuration files

The part of TOML that configurations are written in: headings `[name]` and
`[[name]]`, lines `key = value` below them, and comments.  A value is a string on one
line, a number, a truth value, a list or an inline table.  Dates, dotted keys and
strings of several lines are not read.

A reader takes what it reads off the front of a text and gives it with the rest.
-/

namespace MeshCurve.Run.Toml

abbrev Reader (α : Type) := List Char → Option (α × List Char)

/-! ## Between the tokens -/

def isBlank (c : Char) : Bool := c = ' ' || c = '\t' || c = '\r'

def skipBlanks (text : List Char) : List Char := text.dropWhile isBlank

def skipLines (inComment : Bool) : List Char → List Char
  | [] => []
  | c :: rest =>
    if c = '\n' then skipLines false rest
    else if inComment || isBlank c then skipLines inComment rest
    else if c = '#' then skipLines true rest
    else c :: rest

/-- What follows a line that may end in a comment. -/
def lineEnd? (text : List Char) : Option (List Char) :=
  match skipBlanks text with
  | [] => some []
  | c :: rest =>
    if c = '\n' then some rest
    else if c = '#' then some (rest.dropWhile (· ≠ '\n'))
    else none

def expect (c : Char) : List Char → Option (List Char)
  | [] => none
  | d :: rest => if c = d then some rest else none

/-! ## Strings, keys and words -/

def escape? : Char → Option Char
  | 'b' => some '\x08'
  | 't' => some '\t'
  | 'n' => some '\n'
  | 'f' => some '\x0c'
  | 'r' => some '\r'
  | '\"' => some '\"'
  | '\\' => some '\\'
  | _ => none

/-- The rest of a string after the opening quote, in which `quote` closes it. -/
def string? (quote : Char) (escapes : Bool) (taken : List Char) : Reader String
  | [] => none
  | [c] => if c = quote then some (String.ofList taken.reverse, []) else none
  | c :: d :: rest =>
    if c = quote then some (String.ofList taken.reverse, d :: rest)
    else if c = '\n' then none
    else if escapes ∧ c = '\\' then do
      let e ← escape? d
      string? quote escapes (e :: taken) rest
    else string? quote escapes (c :: taken) (d :: rest)

/-- A string in double quotes may hold escapes, one in single quotes is taken as it
stands. -/
def quoted? : Reader String
  | [] => none
  | c :: rest =>
    if c = '\"' then string? c true [] rest
    else if c = '\'' then string? c false [] rest
    else none

def isKeyChar (c : Char) : Bool := c.isAlphanum || c = '_' || c = '-'

def key? (text : List Char) : Option (String × List Char) :=
  match text.takeWhile isKeyChar with
  | [] => quoted? text
  | key => some (String.ofList key, text.dropWhile isKeyChar)

def isWordChar (c : Char) : Bool := isKeyChar c || c = '+' || c = '.'

def int? (n : Int) : Option Value := if Value.InRange n then some (.int n) else none

/-- An integer has no superfluous zeros; any other word that starts like a number
counts as one with a fraction. -/
def number? (word : List Char) : Option Value :=
  let digits := word.dropWhile fun c => c = '+' || c = '-'
  match digits, (String.ofList digits).toNat? with
  | ['0'], _ => some (.int 0)
  | c :: _, some n =>
    if c = '0' then none else int? (if word.head? = some '-' then -n else n)
  | c :: _, none => if c.isDigit then some .float else none
  | [], _ => none

def word? (text : List Char) : Option (Value × List Char) := do
  let word := text.takeWhile isWordChar
  let value ← match String.ofList word with
    | "true" => some (.bool true)
    | "false" => some (.bool false)
    | "inf" | "nan" => some .float
    | _ => number? word
  return (value, text.dropWhile isWordChar)

/-! ## Values -/

mutual

/-- Lists and inline tables may be nested up to the given depth and length. -/
def value? : (bound : Nat) → Reader Value
  | 0, _ => none
  | _, [] => none
  | bound + 1, c :: rest =>
    if c = '[' then do
      let (items, rest) ← items? bound (skipLines false rest)
      return (.list items, rest)
    else if c = '\x7b' then do
      let (fields, rest) ← fields? bound (skipBlanks rest)
      if (fields.map Prod.fst).Nodup then return (.table fields, rest) else none
    else if c = '\"' ∨ c = '\'' then do
      let (s, rest) ← quoted? (c :: rest)
      return (.string s, rest)
    else word? (c :: rest)

def items? : (bound : Nat) → Reader (List Value)
  | 0, _ => none
  | _, [] => none
  | bound + 1, c :: rest =>
    if c = ']' then some ([], rest) else do
      let (item, rest) ← value? bound (c :: rest)
      match skipLines false rest with
      | [] => none
      | d :: rest =>
        if d = ']' then return ([item], rest)
        else if d = ',' then do
          let (items, rest) ← items? bound (skipLines false rest)
          return (item :: items, rest)
        else none

def fields? : (bound : Nat) → Reader (List (String × Value))
  | 0, _ => none
  | _, [] => none
  | bound + 1, c :: rest =>
    if c = '\x7d' then some ([], rest) else do
      let (key, rest) ← key? (c :: rest)
      let rest ← expect '=' (skipBlanks rest)
      let (value, rest) ← value? bound (skipBlanks rest)
      match skipBlanks rest with
      | [] => none
      | d :: rest =>
        if d = '\x7d' then return ([(key, value)], rest)
        else if d = ',' then do
          let (fields, rest) ← fields? bound (skipBlanks rest)
          return ((key, value) :: fields, rest)
        else none

end

/-! ## Documents -/

/-- A heading and the fields below it. -/
structure Part where
  name : String
  /-- one of several tables in a list -/
  repeated : Bool
  fields : List (String × Value)

def heading? (text : List Char) : Option (Part × List Char) := do
  let inner ← expect '[' text
  let repeated := inner.head? = some '['
  let inner := if repeated then inner.drop 1 else inner
  let (name, rest) ← key? (skipBlanks inner)
  let rest ← expect ']' (skipBlanks rest)
  let rest ← if repeated then expect ']' rest else some rest
  let rest ← lineEnd? rest
  return (⟨name, repeated, []⟩, rest)

def line? (text : List Char) : Option ((String × Value) × List Char) := do
  let (key, rest) ← key? text
  let rest ← expect '=' (skipBlanks rest)
  let (value, rest) ← value? (rest.length + 1) (skipBlanks rest)
  let rest ← lineEnd? rest
  return ((key, value), rest)

/-- The parts of a document, of which `current` is being read. -/
def parts? : (bound : Nat) → (current : Part) → List Char → Option (List Part)
  | 0, _, _ => none
  | bound + 1, current, text =>
    match skipLines false text with
    | [] => some [current]
    | c :: rest =>
      if c = '[' then do
        let (next, rest) ← heading? (c :: rest)
        let parts ← parts? bound next rest
        return current :: parts
      else do
        let (field, rest) ← line? (c :: rest)
        parts? bound { current with fields := current.fields ++ [field] } rest

/-- What stands under one name: a list of tables, or a single table. -/
def gather? (parts : List Part) (name : String) : Option (String × Value) :=
  let group := parts.filter (·.name = name)
  if group.all (·.repeated) then some (name, .list (group.map fun p => .table p.fields))
  else
    match group with
    | [part] => some (name, .table part.fields)
    | _ => none

/-- The value of a document; no table may have two fields of one name. -/
def read? (text : String) : Option Value := do
  let parts ← parts? (text.length + 1) ⟨"", false, []⟩ text.toList
  match parts with
  | [] => none
  | top :: parts =>
    let headed ← (parts.map Part.name).eraseDups.mapM (gather? parts)
    let fields := top.fields ++ headed
    if (fields.map Prod.fst).Nodup ∧ ∀ p ∈ parts, (p.fields.map Prod.fst).Nodup then
      return .table fields
    else none

end MeshCurve.Run.Toml
