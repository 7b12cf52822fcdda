import MeshCurve.Shape

/-!
# Scheme errors

Requests that are well formed and still have no answer: a capability that a shape
lacks, a shape that was not registered, a face of the wrong shape, a name that
names nothing.
-/

namespace MeshCurve

inductive SchemeError where
  | unsupported (shape : Shape) (op : Operation)
  | missingScheme (shape : Shape)
  | faceClassMismatch (shape : Shape) (face : Nat) (expected : Option Shape)
      (found : Shape)
  | unknownShape (name : String)
  | unknownOperation (name : String)
deriving DecidableEq, Repr

namespace SchemeError

private def expectedLabel : Option Shape → String
  | none => "None"
  | some s => s!"Some({s.label})"

def message : SchemeError → String
  | unsupported shape op => s!"{op.label} is not supported for {shape.name} elements"
  | missingScheme shape => s!"no scheme registered for {shape.name} elements"
  | faceClassMismatch shape face expected found =>
    s!"face {face} of a {shape.name} is a {expectedLabel expected}, got a {found.name}"
  | unknownShape name => s!"unknown element class `{name}`"
  | unknownOperation name => s!"unknown operation `{name}`"

end SchemeError

def Shape.ofName (name : String) : Except SchemeError Shape :=
  match ofName? name with
  | some shape => .ok shape
  | none => .error (.unknownShape name)

def Operation.ofName (name : String) : Except SchemeError Operation :=
  match ofName? name with
  | some op => .ok op
  | none => .error (.unknownOperation name)

end MeshCurve
