import MeshCurve.Scheme.Basic
import Mathlib.Data.List.Basic

/-!
# Building a table

A table has one slot for each shape, at the shape's number.  Building it is two searches, one
inside the other: through the shapes for one that lacks an operation, and for each of them through
the operations.  If both come to their end, the filled slots are those of the listed shapes, in
the order of their numbers and however often they were listed; otherwise the refusal names what
was found first.
-/

namespace MeshCurve

/-- Of the members of `xs` that have the property, `x` comes first. -/
def FirstWith {α : Type} (p : α → Prop) (xs : List α) (x : α) : Prop :=
  ∃ before after, xs = before ++ x :: after ∧ p x ∧ ∀ y ∈ before, ¬ p y

section

variable {α : Type} {p : α → Prop} {x y : α} {xs : List α}

theorem not_firstWith_nil : ¬ FirstWith p [] y := by
  rintro ⟨before, after, split, _⟩
  cases before <;> cases split

theorem firstWith_cons_iff :
    FirstWith p (x :: xs) y ↔ p x ∧ y = x ∨ ¬ p x ∧ FirstWith p xs y := by
  constructor
  · rintro ⟨before, after, split, holds, fails⟩
    cases before with
    | nil =>
        cases split
        exact .inl ⟨holds, rfl⟩
    | cons z before =>
        cases split
        exact .inr ⟨fails x List.mem_cons_self, before, after, rfl, holds,
          fun w hw => fails w (List.mem_cons_of_mem x hw)⟩
  · rintro (⟨holds, rfl⟩ | ⟨no, before, after, rfl, holds, fails⟩)
    · exact ⟨[], xs, rfl, holds, nofun⟩
    · exact ⟨x :: before, after, rfl, holds, List.forall_mem_cons.mpr ⟨no, fails⟩⟩

end

namespace SchemeTable

variable {shapes : List Shape} {required : List Operation} {table built : SchemeTable}
  {s : Shape} {op : Operation} {err : SchemeError}

/-! ## Slots -/

/-- The slots in the order of the shapes' numbers. -/
def slots (table : SchemeTable) : List (Option Scheme) := Shape.all.map table.slot

theorem index_lt_length_slots (table : SchemeTable) (s : Shape) :
    s.index < table.slots.length := by
  rw [slots, List.length_map]
  cases s <;> decide

theorem getElem?_slots (table : SchemeTable) (s : Shape) :
    table.slots[s.index]? = some (table.slot s) := by
  cases s <;> rfl

/-- A shape is registered by writing the slot at its number. -/
theorem slots_register (table : SchemeTable) (shape : Shape) :
    (table.register shape).slots = table.slots.set shape.index (some (.ofShape shape)) := by
  cases shape <;> rfl

theorem getElem?_slots_foldl_register (table : SchemeTable) (shapes : List Shape) (s : Shape) :
    (shapes.foldl register table).slots[s.index]? =
      if s ∈ shapes then some (some (.ofShape s)) else table.slots[s.index]? := by
  induction shapes generalizing table with
  | nil => simp
  | cons shape shapes ih =>
      rw [List.foldl_cons, ih, slots_register]
      by_cases same : shape = s
      · subst same
        rw [List.getElem?_set_self (index_lt_length_slots table shape), if_pos List.mem_cons_self,
          ite_self]
      · have other : shape.index ≠ s.index := fun h => same (Shape.index_injective h)
        rw [List.getElem?_set_ne other]
        simp only [List.mem_cons, Ne.symm same, false_or]

theorem slot_foldl_register (shapes : List Shape) (s : Shape) :
    (shapes.foldl register empty).slot s = if s ∈ shapes then some (.ofShape s) else none := by
  have filled := getElem?_slots_foldl_register empty shapes s
  rw [getElem?_slots, getElem?_slots] at filled
  split at filled
  · next listed => rw [if_pos listed, Option.some.inj filled]
  · next unlisted =>
      rw [if_neg unlisted, Option.some.inj filled]
      rfl

/-! ## Searches -/

theorem find?_lacking_eq_none_iff : required.find? (fun op => !s.supports op) = none ↔
    ∀ op ∈ required, s.supports op = true := by
  simp [List.find?_eq_none]

theorem find?_lacking_eq_some_iff : required.find? (fun op => !s.supports op) = some op ↔
    FirstWith (fun op => s.supports op = false) required op := by
  rw [List.find?_eq_some_iff_append, FirstWith]
  simp only [Bool.not_eq_true', Bool.not_eq_false', Bool.not_eq_false]
  constructor
  · rintro ⟨lacks, before, after, split, rest⟩
    exact ⟨before, after, split, lacks, rest⟩
  · rintro ⟨before, after, split, lacks, rest⟩
    exact ⟨lacks, before, after, split, rest⟩

theorem registerAll_eq_ok_iff : registerAll required table shapes = .ok built ↔
    (∀ s ∈ shapes, ∀ op ∈ required, s.supports op = true) ∧
      built = shapes.foldl register table := by
  induction shapes generalizing table with
  | nil =>
      rw [registerAll, pure_eq_ok, Except.ok.injEq]
      exact ⟨fun same => ⟨by simp, same.symm⟩, fun all => all.2.symm⟩
  | cons shape shapes ih =>
      rw [registerAll, List.forall_mem_cons]
      cases found : required.find? fun op => !shape.supports op with
      | some op =>
          refine iff_of_false (by simp) fun all => ?_
          rw [find?_lacking_eq_none_iff.mpr all.1.1] at found
          cases found
      | none =>
          have supported := find?_lacking_eq_none_iff.mp found
          rw [ih, List.foldl_cons]
          exact and_congr_left fun _ => (and_iff_right supported).symm

theorem registerAll_eq_error_iff : registerAll required table shapes = .error err ↔
    ∃ s op, err = .unsupported s op ∧
      FirstWith (fun s => ∃ op ∈ required, s.supports op = false) shapes s ∧
      FirstWith (fun op => s.supports op = false) required op := by
  induction shapes generalizing table with
  | nil =>
      refine iff_of_false (by simp [registerAll, pure_eq_ok]) ?_
      rintro ⟨s, op, _, first, _⟩
      exact not_firstWith_nil first
  | cons shape shapes ih =>
      rw [registerAll]
      simp only [firstWith_cons_iff]
      cases found : required.find? fun op => !shape.supports op with
      | some op =>
          have lacks : ∃ op ∈ required, shape.supports op = false :=
            ⟨op, List.mem_of_find?_eq_some found, by simpa using List.find?_some found⟩
          constructor
          · rintro ⟨⟩
            exact ⟨shape, op, rfl, .inl ⟨lacks, rfl⟩, find?_lacking_eq_some_iff.mp found⟩
          · rintro ⟨s, op', rfl, ⟨_, rfl⟩ | ⟨no, _⟩, first⟩
            · rw [find?_lacking_eq_some_iff.mpr first] at found
              cases found
              rfl
            · exact absurd lacks no
      | none =>
          have supported := find?_lacking_eq_none_iff.mp found
          have none : ¬ ∃ op ∈ required, shape.supports op = false := by
            rintro ⟨op, needed, lacks⟩
            rw [supported op needed] at lacks
            cases lacks
          change registerAll required (table.register shape) shapes = .error err ↔ _
          rw [ih]
          simp only [none, false_and, false_or, not_false_eq_true, true_and]

/-! ## Contents -/

/-- What a table answers that was built for the listed shapes. -/
structure Holds (table : SchemeTable) (shapes : List Shape) : Prop where
  slot (s : Shape) : table.slots[s.index]? =
    some (if s ∈ shapes then some (.ofShape s) else none)
  contains_iff (s : Shape) : table.contains s = true ↔ s ∈ shapes
  mem_shapes_iff (s : Shape) : s ∈ table.shapes ↔ s ∈ shapes
  shapes_increase : table.shapes.Pairwise fun s t => s.index < t.index
  scheme_of_mem {s : Shape} : s ∈ shapes → ∃ scheme, table.scheme s = .ok scheme ∧
    scheme.shape = s
  scheme_of_not_mem {s : Shape} : s ∉ shapes → table.scheme s = .error (.missingScheme s)

theorem shapes_foldl_register (shapes : List Shape) :
    (shapes.foldl register empty).shapes = Shape.all.filter (· ∈ shapes) := by
  rw [SchemeTable.shapes, List.map_filterMap, ← List.filterMap_eq_filter]
  congr 1
  funext s
  rw [slot_foldl_register]
  by_cases listed : s ∈ shapes
  · simp [listed, Scheme.ofShape, Option.guard]
  · simp [listed, Option.guard]

theorem holds_foldl_register (shapes : List Shape) :
    (shapes.foldl register empty).Holds shapes where
  slot s := by rw [getElem?_slots, slot_foldl_register]
  contains_iff s := by
    rw [contains, slot_foldl_register]
    split <;> simp [*]
  mem_shapes_iff s := by simp [shapes_foldl_register, Shape.mem_all]
  shapes_increase := by
    rw [shapes_foldl_register]
    exact List.Pairwise.filter _ (by decide)
  scheme_of_mem {s} listed := by
    refine ⟨.ofShape s, ?_, rfl⟩
    rw [scheme, slot_foldl_register, if_pos listed]
  scheme_of_not_mem {s} unlisted := by
    rw [scheme, slot_foldl_register, if_neg unlisted]

/-- A table is built if and only if every listed shape supports every operation, and then holds
just these shapes.  The refusal names the first shape that lacks an operation and the first
operation that it lacks, whatever else is listed. -/
theorem ofShapes_decides (shapes : List Shape) (required : List Operation) :
    ((∃ table, ofShapes shapes required = .ok table) ↔
      ∀ s ∈ shapes, ∀ op ∈ required, s.supports op = true) ∧
    (∀ table, ofShapes shapes required = .ok table → table.Holds shapes) ∧
    ∀ err, ofShapes shapes required = .error err ↔ ∃ s op, err = .unsupported s op ∧
      FirstWith (fun s => ∃ op ∈ required, s.supports op = false) shapes s ∧
      FirstWith (fun op => s.supports op = false) required op := by
  refine ⟨?_, ?_, fun err => registerAll_eq_error_iff⟩
  · constructor
    · rintro ⟨table, built⟩
      exact (registerAll_eq_ok_iff.mp built).1
    · intro supported
      exact ⟨_, registerAll_eq_ok_iff.mpr ⟨supported, rfl⟩⟩
  · intro table built
    obtain ⟨_, rfl⟩ := registerAll_eq_ok_iff.mp built
    exact holds_foldl_register shapes

/-- A shape listed twice is there once; of two shapes that lack an operation, and of two
operations that they lack, the refusal names those that were listed first. -/
theorem ofShapes_decides_prism :
    (∃ table, ofShapes [.prism, .quad, .prism] [.extrudeFace] = .ok table ∧
      table.Holds [.prism, .quad, .prism] ∧ table.shapes = [.quad, .prism]) ∧
    ofShapes [.prism, .tet, .line] [.nca, .extrudeFace, .boundaryFace] =
      .error (.unsupported .tet .extrudeFace) := by
  obtain ⟨supported, holds, _⟩ := ofShapes_decides [.prism, .quad, .prism] [.extrudeFace]
  obtain ⟨_, _, refused⟩ :=
    ofShapes_decides [.prism, .tet, .line] [.nca, .extrudeFace, .boundaryFace]
  obtain ⟨table, built⟩ := supported.mpr (by decide)
  refine ⟨⟨table, built, holds table built, ?_⟩, ?_⟩
  · cases built
    rfl
  · refine (refused _).mpr ⟨.tet, .extrudeFace, rfl, ⟨[.prism], [.line], rfl, ?_⟩,
      [.nca], [.boundaryFace], rfl, by decide⟩
    decide

end SchemeTable
end MeshCurve
