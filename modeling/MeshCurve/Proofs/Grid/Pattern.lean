import MeshCurve.Shape
import Mathlib.Algebra.Group.Prod
import Mathlib.Data.Int.Basic
import Mathlib.Data.List.Pairwise
import Mathlib.Logic.Basic
import Mathlib.Tactic.Abel

/-!
# Patterns of cells

The cells of a level look alike wherever they lie: what surrounds a cell and what it is
cut into depend on its type only.  So a shape is described by a finite pattern, the
laws of which are decided once and then carried to every place.
-/

namespace MeshCurve

/-- Where a cell lies on its level: its type, and its corner in units of its edges. -/
structure Site (V : Type) where
  type : Nat
  corner : V
deriving DecidableEq

namespace Site

variable {V : Type} [AddCommGroup V]

def origin (type : Nat) : Site V := ⟨type, 0⟩

/-- The site `s` seen from the corner of `q`. -/
def shift (q s : Site V) : Site V := ⟨s.type, q.corner + s.corner⟩

/-- The site `b` of the next level, seen from the corner of `q`. -/
def zoom (q b : Site V) : Site V := ⟨b.type, q.corner + q.corner + b.corner⟩

@[simp] theorem type_shift (q s : Site V) : (q.shift s).type = s.type := rfl

@[simp] theorem type_zoom (q b : Site V) : (q.zoom b).type = b.type := rfl

@[simp] theorem shift_origin (q : Site V) : q.shift (origin q.type) = q := by
  simp [shift, origin]

@[simp] theorem shift_shift (q s t : Site V) : (q.shift s).shift t = q.shift (s.shift t) := by
  simp [shift, add_assoc]

@[simp] theorem zoom_shift (q b s : Site V) : (q.zoom b).shift s = q.zoom (b.shift s) := by
  simp [shift, zoom, add_assoc]

@[simp] theorem shift_zoom (q s b : Site V) : (q.shift s).zoom b = q.zoom (s.zoom b) := by
  simp only [shift, zoom, mk.injEq, true_and]
  abel

@[simp] theorem shift_inj {q s t : Site V} : q.shift s = q.shift t ↔ s = t := by
  cases s
  cases t
  simp [shift]

@[simp] theorem zoom_inj {q b c : Site V} : q.zoom b = q.zoom c ↔ b = c := by
  cases b
  cases c
  simp [zoom]

end Site

/-- How the cells of a shape are cut and glued, by their types. -/
structure Pattern (V : Type) where
  /-- the children, seen from the corner of their parent -/
  child : (type i : Nat) → Site V
  /-- the neighbour across a face, and its own number for that face -/
  across : (type face : Nat) → Site V × Nat
  /-- the children that touch a face, and the faces with which they do -/
  onFace : (type face : Nat) → List (Nat × Nat)

namespace Pattern

variable {V : Type} [AddCommGroup V]

/-- What lies across a face of the cell at a site. -/
def beyond (p : Pattern V) (q : Site V) (face : Nat) : Site V × Nat :=
  (q.shift (p.across q.type face).1, (p.across q.type face).2)

/-- What the pattern of a shape has to satisfy.  The last two say that a face of a child
either lies between siblings or is part of a face of the parent, and that two cells cut
the face between them in the same way. -/
@[mk_iff]
structure Conforms (p : Pattern V) (s : Shape) : Prop where
  child_type : ∀ t < s.numTypes, ∀ i < s.numChildren, (p.child t i).type < s.numTypes
  across_type : ∀ t < s.numTypes, ∀ f < s.numFaces, (p.across t f).1.type < s.numTypes
  across_face : ∀ t < s.numTypes, ∀ f < s.numFaces, (p.across t f).2 < s.numFaces
  across_ne : ∀ t < s.numTypes, ∀ f < s.numFaces, (p.across t f).1 ≠ .origin t
  across_back : ∀ t < s.numTypes, ∀ f < s.numFaces,
    p.beyond (p.across t f).1 (p.across t f).2 = (.origin t, f)
  onFace_lt : ∀ t < s.numTypes, ∀ f < s.numFaces, ∀ x ∈ p.onFace t f, x.1 < s.numChildren
  onFace_sorted : ∀ t < s.numTypes, ∀ f < s.numFaces,
    (p.onFace t f).Pairwise fun x y => x.1 < y.1
  onFace_unique : ∀ t < s.numTypes, ∀ f < s.numFaces, ∀ f' < s.numFaces,
    ∀ x ∈ p.onFace t f, x ∈ p.onFace t f' → f = f'
  inner_or_outer : ∀ t < s.numTypes, ∀ i < s.numChildren, ∀ g < s.numFaces,
    (∃ j < s.numChildren, p.child t j = (p.beyond (p.child t i) g).1) ↔
      ¬ ∃ f < s.numFaces, (i, g) ∈ p.onFace t f
  matched : ∀ t < s.numTypes, ∀ f < s.numFaces, ∀ x ∈ p.onFace t f,
    ∃ y ∈ p.onFace (p.across t f).1.type (p.across t f).2,
      p.beyond (p.child t x.1) x.2 =
        ((p.across t f).1.zoom (p.child (p.across t f).1.type y.1), y.2)

set_option synthInstance.maxSize 1000 in
instance [DecidableEq V] (p : Pattern V) (s : Shape) : Decidable (p.Conforms s) :=
  decidable_of_iff _ (p.conforms_iff s).symm

variable {p : Pattern V} {s : Shape} {q : Site V} {f g i : Nat}

@[simp] theorem beyond_shift (p : Pattern V) (q t : Site V) (f : Nat) :
    p.beyond (q.shift t) f = (q.shift (p.beyond t f).1, (p.beyond t f).2) := by
  simp [beyond]

@[simp] theorem beyond_zoom (p : Pattern V) (q b : Site V) (f : Nat) :
    p.beyond (q.zoom b) f = (q.zoom (p.beyond b f).1, (p.beyond b f).2) := by
  simp [beyond]

namespace Conforms

theorem beyond_beyond (h : p.Conforms s) (hq : q.type < s.numTypes) (hf : f < s.numFaces) :
    p.beyond (p.beyond q f).1 (p.beyond q f).2 = (q, f) := by
  have back := h.across_back q.type hq f hf
  have start : p.beyond q f = (q.shift (p.across q.type f).1, (p.across q.type f).2) := rfl
  rw [start, beyond_shift, back]
  simp

theorem beyond_ne (h : p.Conforms s) (hq : q.type < s.numTypes) (hf : f < s.numFaces) :
    (p.beyond q f).1 ≠ q := by
  intro same
  rw [beyond] at same
  have moved : q.shift (p.across q.type f).1 = q.shift (.origin q.type) := by simpa using same
  exact h.across_ne q.type hq f hf (Site.shift_inj.mp moved)

theorem onFace_getElem?_inj (h : p.Conforms s) {t k k' : Nat} {x : Nat × Nat}
    (ht : t < s.numTypes) (hf : f < s.numFaces) (hk : (p.onFace t f)[k]? = some x)
    (hk' : (p.onFace t f)[k']? = some x) : k = k' := by
  have nodup : (p.onFace t f).Nodup :=
    (h.onFace_sorted t ht f hf).imp fun lt same => Nat.ne_of_lt lt (congrArg Prod.fst same)
  have bound : k < (p.onFace t f).length := (List.getElem?_eq_some_iff.mp hk).1
  exact (List.getElem?_inj bound nodup).mp (hk.trans hk'.symm)

end Conforms

end Pattern

end MeshCurve
