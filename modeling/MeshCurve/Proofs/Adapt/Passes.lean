import MeshCurve.Proofs.Adapt.Pairing
import MeshCurve.Proofs.Leaves.Tiling
import MeshCurve.Proofs.Shapes

/-!
# What passes keep

The two sides of a change tile the same interval of ids.  So a pass keeps the order of
the leaves and the ids that they cover, and so do any number of passes, whatever
limits and policies they run with.
-/

namespace MeshCurve.Adapt

open Element Leaves

variable {E : Type} [Element E]

/-! ## Kinds of exchanges -/

inductive ExchangeKind where
  | carried | split | merged
deriving DecidableEq, Repr

/-- One leaf and itself, one leaf and a run strictly below it, or a family in order and
its parent. -/
def Exchange.IsOf [DecidableEq E] (x : Exchange E) : ExchangeKind → Prop
  | .carried => ∃ e, x.outgoing = [e] ∧ x.incoming = [e]
  | .split => ∃ e, x.outgoing = [e] ∧ branching E ≤ x.incoming.length ∧
      ∀ d ∈ x.incoming, d ≠ e ∧ isAncestor e d = .ok true
  | .merged => ∃ p, children p = .ok x.outgoing ∧ x.incoming = [p]

theorem Exchange.IsOf.length_outgoing [DecidableEq E] {x : Exchange E} {kind : ExchangeKind}
    (h : x.IsOf kind) : x.outgoing.length = if kind = .merged then branching E else 1 := by
  cases kind with
  | carried =>
      obtain ⟨e, out, _⟩ := h
      rw [out]
      rfl
  | split =>
      obtain ⟨e, out, _⟩ := h
      rw [out]
      rfl
  | merged =>
      obtain ⟨p, family, _⟩ := h
      exact length_children family

theorem Exchange.IsOf.length_incoming [DecidableEq E] {x : Exchange E} {kind : ExchangeKind}
    (h : x.IsOf kind) :
    if kind = .split then branching E ≤ x.incoming.length else x.incoming.length = 1 := by
  cases kind with
  | carried =>
      obtain ⟨e, _, new⟩ := h
      rw [new]
      rfl
  | split =>
      obtain ⟨e, _, several, _⟩ := h
      exact several
  | merged =>
      obtain ⟨p, _, new⟩ := h
      rw [new]
      rfl

theorem Exchange.IsOf.unique [DecidableEq E] {x : Exchange E} {kind kind' : ExchangeKind}
    (h : x.IsOf kind) (h' : x.IsOf kind') : kind = kind' := by
  have several : 1 < branching E := Shape.numChildren_pos _
  have out := h.length_outgoing
  have new := h.length_incoming
  rw [h'.length_outgoing] at out
  have new' := h'.length_incoming
  cases kind <;> cases kind' <;> grind

theorem Change.existsUnique_kind [DecidableEq E] [LawfulNavigation E] {x : Exchange E}
    (hx : Change x) (hv : ∀ e ∈ x.outgoing, Valid e) : ∃! kind, x.IsOf kind := by
  have some' : ∃ kind, x.IsOf kind := by
    cases hx with
    | carried e => exact ⟨.carried, e, rfl, rfl⟩
    | @split e cs run hcs cuts =>
        refine ⟨.split, e, rfl, Cuts.branching_le hcs cuts, ?_⟩
        intro d hd
        have he := hv e List.mem_cons_self
        have below := cuts.below_element hcs hd
        obtain ⟨l, _, hl⟩ := level_of_valid he
        constructor
        · rintro rfl
          exact absurd (cuts.level_lt hcs hd hl hl) (Nat.lt_irrefl l)
        · exact (isAncestor_of_valid he (below.valid he)).eq_true below
    | merged hp family => exact ⟨.merged, _, family, rfl⟩
  obtain ⟨kind, h⟩ := some'
  exact ⟨kind, h, fun _ h' => h'.unique h⟩

/-- A pass over separate leaves hands each of them on exactly once, in order, and puts
each new leaf in its place in exactly one way. -/
theorem exchanges_partition (s : Shape) {Client : Type} {leaves : Leaves s.Carrier}
    (valid : ∀ e ∈ leaves.toList, Valid e) (separate : Separate leaves) (limits : Limits)
    {policy : Policy Client s.Carrier} {client : Client}
    (h : Cooperates limits policy client leaves) :
    ∃ out, adapt limits policy client leaves = .ok out ∧
      out.exchanges.flatMap Exchange.outgoing = leaves.toList ∧
      out.exchanges.flatMap Exchange.incoming = out.leaves.toList ∧
      ∀ x ∈ out.exchanges, ∃! kind, x.IsOf kind := by
  have apart := (separate_iff valid).mp separate
  obtain ⟨out, ran, changes, old, new⟩ := exists_adapt h valid apart
  refine ⟨out, ran, old, new, ?_⟩
  intro x hx
  apply (changes x hx).existsUnique_kind
  intro e he
  exact valid e (old ▸ List.mem_flatMap.mpr ⟨x, hx, he⟩)

/-- The second child of the root and, out of order, the family of the first. -/
def fiveQuads : Leaves Quad :=
  ⟨[⟨0x20000000, 0, 1⟩, ⟨0, 0, 2⟩, ⟨0x10000000, 0, 2⟩, ⟨0, 0x10000000, 2⟩,
    ⟨0x10000000, 0x10000000, 2⟩]⟩

/-- Two answers are written down, to the quad that comes first and to the family after it, and
no more than these are asked for. -/
theorem exchanges_partition_quad :
    (∀ e ∈ fiveQuads.toList, Valid e) ∧ Separate fiveQuads ∧
      Cooperates .unbounded (scripted Quad) [.refine, .coarsen] fiveQuads ∧
      ∃ out, adapt .unbounded (scripted Quad) [.refine, .coarsen] fiveQuads = .ok out ∧
        out.exchanges.flatMap Exchange.outgoing = fiveQuads.toList ∧
        out.exchanges.flatMap Exchange.incoming = out.leaves.toList ∧
        ∀ x ∈ out.exchanges, ∃! kind, x.IsOf kind := by
  have valid : ∀ e ∈ fiveQuads.toList, Valid e := by decide
  have separate : Separate fiveQuads := by
    unfold Separate
    decide
  have log : offersIn Outcome.offers
      (adapt .unbounded (scripted Quad) [.refine, .coarsen] fiveQuads) =
        [fiveQuads.toList.take 1, fiveQuads.toList.drop 1] := by cbv
  have cooperates : Cooperates .unbounded (scripted Quad) [.refine, .coarsen] fiveQuads := by
    rw [Cooperates, log]
    refine .cons (a := .refine) rfl (fun none => by cases none) (.cons (a := .coarsen) rfl ?_ .nil)
    intro _ e _ alone
    cases alone
  exact ⟨valid, separate, cooperates,
    exchanges_partition .quad valid separate .unbounded cooperates⟩

/-! ## Both sides of a change -/

section

variable [LawfulNumbering E]

theorem hereditary_inRoot : Hereditary (InRoot : E → Prop) where
  valid := And.left
  child he hc := ⟨(of_child he.1 hc).1, (isInsideRoot_child he.1 hc).trans he.2⟩

theorem inRoot_of_children {q : E} {cs : List E} (hq : Valid q) (hcs : children q = .ok cs)
    (inRoot : ∀ c ∈ cs, InRoot c) : InRoot q := by
  obtain ⟨c, hc, step⟩ := getElem?_children hcs (branching_pos E)
  have inside := (inRoot c (List.mem_of_getElem? hc)).2
  rw [isInsideRoot_child hq step] at inside
  exact ⟨hq, inside⟩

theorem Cuts.tiled {lo hi : Nat} {pending run : List E} (h : Cuts pending run)
    (tiled : Tiled lo hi pending) : Tiled lo hi run := by
  induction h generalizing lo with
  | nil => exact tiled
  | emit _ ih =>
      cases tiled with
      | cons he rest => exact .cons he (ih rest)
  | split hcs _ ih =>
      cases tiled with
      | @cons _ _ mid _ _ he rest =>
          exact ih (tiled_append_iff.mpr ⟨mid, tiled_children he hcs, rest⟩)

theorem Change.exists_tiled {x : Exchange E} (hx : Change x)
    (inRoot : ∀ e ∈ x.outgoing, InRoot e) :
    ∃ lo hi, lo < hi ∧ Tiled lo hi x.outgoing ∧ Tiled lo hi x.incoming := by
  cases hx with
  | carried e =>
      obtain ⟨lo, hi, he⟩ := inRoot_iff_extent.mp (inRoot e List.mem_cons_self)
      exact ⟨lo, hi, he.lt, tiled_singleton he, tiled_singleton he⟩
  | @split e cs run hcs cuts =>
      obtain ⟨lo, hi, he⟩ := inRoot_iff_extent.mp (inRoot e List.mem_cons_self)
      exact ⟨lo, hi, he.lt, tiled_singleton he, cuts.tiled (tiled_children he hcs)⟩
  | @merged p family hp hf =>
      obtain ⟨lo, hi, he⟩ := inRoot_iff_extent.mp (inRoot_of_children hp hf inRoot)
      exact ⟨lo, hi, he.lt, tiled_children he hf, tiled_singleton he⟩

variable {changes : List (Exchange E)}

theorem laid_incoming {n : Nat} (hc : ∀ x ∈ changes, Change x)
    (laid : Laid n (outgoing changes)) : Laid n (incoming changes) := by
  induction changes generalizing n with
  | nil => exact laid
  | cons x changes ih =>
      obtain ⟨hx, hrest⟩ := List.forall_mem_cons.mp hc
      rw [outgoing_cons] at laid
      rw [incoming_cons]
      obtain ⟨lo, hi, room, old, new⟩ :=
        hx.exists_tiled (List.forall_mem_append.mp laid.inRoot).1
      obtain ⟨start, later⟩ := (laid_append_iff old room).mp laid
      exact (laid_append_iff new room).mpr ⟨start, ih hrest later⟩

theorem tiled_incoming {lo hi : Nat} (hc : ∀ x ∈ changes, Change x)
    (inRoot : ∀ e ∈ outgoing changes, InRoot e) (tiled : Tiled lo hi (outgoing changes)) :
    Tiled lo hi (incoming changes) := by
  induction changes generalizing lo with
  | nil => exact tiled
  | cons x changes ih =>
      obtain ⟨hx, hrest⟩ := List.forall_mem_cons.mp hc
      rw [outgoing_cons] at inRoot tiled
      rw [incoming_cons]
      obtain ⟨first, later⟩ := List.forall_mem_append.mp inRoot
      obtain ⟨lo', hi', room, old, new⟩ := hx.exists_tiled first
      obtain ⟨mid, before, after⟩ := tiled_append_iff.mp tiled
      have some' : x.outgoing ≠ [] := by
        intro none
        rw [none, tiled_nil_iff] at old
        exact room.ne old
      obtain ⟨rfl, rfl⟩ := before.unique old some'
      exact tiled_append_iff.mpr ⟨mid, new, ih hrest later after⟩

theorem covers_incoming_iff [DecidableEq E] {n : Nat} (hc : ∀ x ∈ changes, Change x)
    (inRoot : ∀ e ∈ outgoing changes, InRoot e) :
    Covers (incoming changes) n ↔ Covers (outgoing changes) n := by
  induction changes with
  | nil => rfl
  | cons x changes ih =>
      obtain ⟨hx, hrest⟩ := List.forall_mem_cons.mp hc
      rw [outgoing_cons] at inRoot ⊢
      rw [incoming_cons]
      obtain ⟨first, later⟩ := List.forall_mem_append.mp inRoot
      obtain ⟨lo, hi, _, old, new⟩ := hx.exists_tiled first
      rw [covers_append, covers_append, new.covers_iff, old.covers_iff, ih hrest later]

end

/-! ## Passes -/

section

variable [DecidableEq E]

/-- The leaves after any number of finished passes, each with limits and a policy of its own. -/
inductive Passes (leaves : Leaves E) : Leaves E → Prop
  | start : Passes leaves leaves
  | pass {Client : Type} {now : Leaves E} {limits : Limits} {policy : Policy Client E}
      {client : Client} {out : Outcome Client E} : Passes leaves now →
      adapt limits policy client now = .ok out → Passes leaves out.leaves

/-- Ordered leaves that cover what `leaves` do. -/
structure SameRegion (leaves now : Leaves E) : Prop where
  ordered : Ordered now
  covers (n : Nat) : Covers now.toList n ↔ Covers leaves.toList n
  complete : leaves.isComplete = .ok true → now.isComplete = .ok true

theorem SameRegion.refl {leaves : Leaves E} (h : Ordered leaves) : SameRegion leaves leaves :=
  ⟨h, fun _ => Iff.rfl, id⟩

theorem SameRegion.trans {leaves now later : Leaves E} (h : SameRegion leaves now)
    (h' : SameRegion now later) : SameRegion leaves later :=
  ⟨h'.ordered, fun n => (h'.covers n).trans (h.covers n), fun full => h'.complete (h.complete full)⟩

variable [LawfulNumbering E]

theorem sameRegion_of_adapt {Client : Type} {leaves : Leaves E} (ordered : Ordered leaves)
    {limits : Limits} {policy : Policy Client E} {client : Client} {out : Outcome Client E}
    (ran : adapt limits policy client leaves = .ok out) : SameRegion leaves out.leaves := by
  have laid := ordered_iff_laid.mp ordered
  have inRoot := ordered.inRoot
  obtain ⟨changes, old, new⟩ :=
    changes_of_adapt ran (fun e he => (inRoot e he).1) laid.pairwise_apart
  rw [← old] at laid inRoot
  have laid' := laid_incoming changes laid
  refine ⟨ordered_iff_laid.mpr (new ▸ laid'), ?_, ?_⟩
  · intro n
    rw [← old, ← new]
    exact covers_incoming_iff changes inRoot
  · intro full
    have tiled := (isComplete_of_inRoot ordered.inRoot).eq_true_iff.mp full
    rw [← old] at tiled
    have tiled' := tiled_incoming changes inRoot tiled
    exact (isComplete_of_inRoot (new ▸ laid'.inRoot)).eq_true (new ▸ tiled')

theorem exists_pass {Client : Type} {leaves : Leaves E} (ordered : Ordered leaves)
    {limits : Limits} {policy : Policy Client E} {client : Client}
    (h : Cooperates limits policy client leaves) :
    ∃ out, adapt limits policy client leaves = .ok out ∧ SameRegion leaves out.leaves := by
  have apart := (ordered_iff_laid.mp ordered).pairwise_apart
  obtain ⟨out, ran, _⟩ := exists_adapt h (fun e he => (ordered.inRoot e he).1) apart
  exact ⟨out, ran, sameRegion_of_adapt ordered ran⟩

theorem sameRegion_of_passes {leaves now : Leaves E} (ordered : Ordered leaves)
    (h : Passes leaves now) : SameRegion leaves now := by
  induction h with
  | start => exact .refl ordered
  | pass _ ran ih => exact ih.trans (sameRegion_of_adapt ih.ordered ran)

end

/-- Passes over ordered leaves of any shape always finish, and keep their order, the ids
that they cover and their completeness. -/
theorem passes_keep_region (s : Shape) {leaves now : Leaves s.Carrier} (ordered : Ordered leaves)
    (h : Passes leaves now) :
    SameRegion leaves now ∧
      ∀ {Client : Type} (limits : Limits) {policy : Policy Client s.Carrier} {client : Client},
        Cooperates limits policy client now →
          ∃ out, adapt limits policy client now = .ok out ∧ SameRegion leaves out.leaves := by
  have same := sameRegion_of_passes ordered h
  refine ⟨same, ?_⟩
  intro Client limits policy client cooperates
  obtain ⟨out, ran, same'⟩ := exists_pass same.ordered cooperates
  exact ⟨out, ran, same.trans same'⟩

/-- The first and the third child of the root. -/
def twoTriangles : Leaves Triangle :=
  ⟨[⟨0, 0, 0, 1⟩, ⟨0x10000000, 0, 1, 1⟩]⟩

theorem passes_keep_region_triangle :
    Ordered twoTriangles ∧ ∃ now, Passes twoTriangles now ∧ SameRegion twoTriangles now ∧
      Cooperates .unbounded (seesaw Triangle) 0 now ∧
      ∃ out, adapt .unbounded (seesaw Triangle) 0 now = .ok out ∧
        SameRegion twoTriangles out.leaves := by
  have ordered : Ordered twoTriangles := by
    refine ⟨?_, by rfl, ?_⟩
    · unfold InRoot
      decide
    · unfold Separate
      decide
  have cooperates : ∀ {now : Leaves Triangle}, (∀ e ∈ now.toList, InRoot e) →
      Cooperates .unbounded (seesaw Triangle) 0 now :=
    fun inRoot => (seesaw_willing InRoot).cooperates hereditary_inRoot .unbounded 0 inRoot
  obtain ⟨_, again⟩ := passes_keep_region .triangle ordered .start
  obtain ⟨out, ran, _⟩ := again .unbounded (cooperates ordered.inRoot)
  have passed : Passes twoTriangles out.leaves := .pass .start ran
  obtain ⟨same, again⟩ := passes_keep_region .triangle ordered passed
  exact ⟨ordered, out.leaves, passed, same, cooperates same.ordered.inRoot,
    again .unbounded (cooperates same.ordered.inRoot)⟩

end MeshCurve.Adapt
