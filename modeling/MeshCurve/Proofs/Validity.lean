import MeshCurve.Proofs.Shapes

/-!
# The test of validity

An element is a record that may hold any numbers.  The test that tells the valid ones asks for
the level first, since alignment cannot be computed on a level that there is not.  In this order
every question has an answer, whatever the fields are.
-/

namespace MeshCurve

open Element

/-- The call has an answer, and what is valid passes it and has coordinates among its fields. -/
def Tests (call : Except Fault Bool) (fields : List Int) (valid : Prop) : Prop :=
  ∃ passed, call = .ok passed ∧ (valid ↔ (∀ c ∈ fields, IsCoordinate c) ∧ passed = true)

theorem Tests.congr {call : Except Fault Bool} {fields : List Int} {p q : Prop}
    (h : Tests call fields p) (hpq : p ↔ q) : Tests call fields q := by
  obtain ⟨passed, answer, hiff⟩ := h
  exact ⟨passed, answer, hpq.symm.trans hiff⟩

/-- Whether all fields are aligned, asked only where something else holds. -/
def alignedIf (first : Prop) [Decidable first] (fields : List Int) (level depth : Nat) :
    Except Fault Bool :=
  if first then fields.allM fun c => Coord.isAligned c level depth else return false

theorem alignedIf_tests {first : Prop} [Decidable first] {fields : List Int} {level depth : Nat}
    (hd : depth ≤ 30) (hl : first → level ≤ depth) :
    Tests (alignedIf first fields level depth) fields
      (first ∧ ∀ c ∈ fields, IsCoordinate c ∧ Coord.residue c (depth - level) = 0) := by
  rw [alignedIf, forall₂_and]
  split
  · next holds =>
      have each : ∀ c ∈ fields, Decides (Coord.isAligned c level depth)
          (Coord.residue c (depth - level) = 0) := fun _ _ =>
        Coord.isAligned_decides hd (hl holds)
      obtain ⟨aligned, answer, hiff⟩ := Decides.allM each
      exact ⟨aligned, answer, by rw [hiff, and_iff_right holds]⟩
  · next fails => exact ⟨false, rfl, iff_of_false (fun h => fails h.1) (by simp)⟩

/-! ## The shapes -/

def Line.isValid (e : Line) : Except Fault Bool :=
  alignedIf (e.level ≤ depth) [e.x] e.level depth

def Quad.isValid (e : Quad) : Except Fault Bool :=
  alignedIf (e.level ≤ depth) [e.x, e.y] e.level depth

def Kuhn.isValid {K : Type} [Kuhn K] (e : K) : Except Fault Bool :=
  alignedIf (level e ≤ depth K ∧ type e < (shape K).numTypes) (coords e) (level e) (depth K)

def Prism.isValid (e : Prism) : Except Fault Bool :=
  if e.tri.level = e.line.level ∧ e.tri.level ≤ depth then do
    if ← Kuhn.isValid e.tri then e.line.isValid else return false
  else return false

/-- The test with all that can fail in it. -/
def isValid : (s : Shape) → s.Carrier → Except Fault Bool
  | .line, e => Line.isValid e
  | .quad, e => Quad.isValid e
  | .triangle, e => Kuhn.isValid (K := Triangle) e
  | .tet, e => Kuhn.isValid (K := Tet) e
  | .prism, e => Prism.isValid e

/-- The fields that are signed numbers. -/
def signedFields : (s : Shape) → s.Carrier → List Int
  | .line, e => [Line.x e]
  | .quad, e => [Quad.x e, Quad.y e]
  | .triangle, e => Kuhn.coords (K := Triangle) e
  | .tet, e => Kuhn.coords (K := Tet) e
  | .prism, e => Kuhn.coords (Prism.tri e) ++ [(Prism.line e).x]

theorem Line.isValid_tests (e : Line) : Tests e.isValid [e.x] e.Valid :=
  (alignedIf_tests (by decide) id).congr (by rw [List.forall_mem_singleton, Line.Valid])

theorem Quad.isValid_tests (e : Quad) : Tests e.isValid [e.x, e.y] e.Valid :=
  (alignedIf_tests (by decide) id).congr
    (by rw [List.forall_mem_cons, List.forall_mem_singleton, Quad.Valid])

theorem Kuhn.isValid_tests {K : Type} [Kuhn K] [Kuhn.LawfulKuhn K] (e : K) :
    Tests (Kuhn.isValid e) (coords e) (Kuhn.Valid e) :=
  (alignedIf_tests Kuhn.depth_le And.left).congr and_assoc

theorem Prism.isValid_tests (e : Prism) :
    Tests e.isValid (Kuhn.coords e.tri ++ [e.line.x]) e.Valid := by
  rw [Prism.isValid, Prism.Valid]
  split
  · next equal =>
      obtain ⟨t, ht, triangle⟩ := Kuhn.isValid_tests e.tri
      obtain ⟨n, hn, line⟩ := e.line.isValid_tests
      rw [ht, ok_bind, triangle, line]
      cases t with
      | false => exact ⟨false, rfl, by simp⟩
      | true =>
          refine ⟨n, hn, ?_⟩
          rw [List.forall_mem_append]
          tauto
  · next differ => exact ⟨false, rfl, iff_of_false (fun h => differ ⟨h.1, h.2.1⟩) (by simp)⟩

/-- Every element can be tested, and the test decides whether it is valid. -/
theorem isValid_tests (s : Shape) (e : s.Carrier) :
    Tests (isValid s e) (signedFields s e) (Valid e) := by
  cases s with
  | line => exact Line.isValid_tests e
  | quad => exact Quad.isValid_tests e
  | triangle => exact Kuhn.isValid_tests (K := Triangle) e
  | tet => exact Kuhn.isValid_tests (K := Tet) e
  | prism => exact Prism.isValid_tests e

end MeshCurve
