import MeshCurve.Proofs.Grid.Boundary
import MeshCurve.Proofs.Walk.Steps

/-!
# Subtrees as intervals

The elements of a level below one element are those from its first to its last
descendant: their ids are an interval, which starts at the id of the element itself.  The
intervals of two elements are nested or disjoint.
-/

namespace MeshCurve

/-! ## Room for the last descendant -/

/-- The far corner of a cell fits its word, wherever the cell is. -/
theorem Coord.Aligned.isCoordinate_far {c : Int} {j k : Nat} (h : Aligned c k) (hk : k ≤ 31)
    (hj : j ≤ k) : IsCoordinate (c + (2 ^ k - 2 ^ j)) := by
  have finer : (2 : Int) ^ j ≤ 2 ^ k := pow_le_pow_right₀ (by decide) hj
  have positive := two_pow_pos j
  obtain ⟨lower, upper⟩ := h.bounds hk
  exact ⟨by omega, by omega⟩

/-- The end point itself is computed first, which needs room beyond the last cell. -/
theorem Line.lastDescendant_eq {e : Line} {target : Nat} (hl : e.level ≤ depth)
    (hle : e.level ≤ target) (ht : target ≤ depth) :
    e.lastDescendant target = (coordinate (e.x + 2 ^ (depth - e.level)) >>= fun stop =>
      coordinate (stop - 2 ^ (depth - target)) >>= fun x => .ok ⟨x, target⟩) := by
  rw [lastDescendant, require_of_true ⟨hle, ht⟩, ok_bind, edgeLen,
    Coord.cellLen_eq (by decide) hl, ok_bind, Coord.cellLen_eq (by decide) ht, ok_bind]
  rfl

theorem Line.exists_lastDescendant_of_room {e : Line} {target : Nat} (he : e.Valid)
    (room : IsCoordinate (e.x + 2 ^ (depth - e.level))) (hle : e.level ≤ target)
    (ht : target ≤ depth) : ∃ d, e.lastDescendant target = .ok d := by
  obtain ⟨lower, _⟩ := he.2.1
  have finer : (2 : Int) ^ (depth - target) ≤ 2 ^ (depth - e.level) :=
    pow_le_pow_right₀ (by decide) (Nat.sub_le_sub_left hle _)
  have positive := Coord.two_pow_pos (depth - target)
  have last : IsCoordinate (e.x + 2 ^ (depth - e.level) - 2 ^ (depth - target)) :=
    ⟨by omega, by have := room.2; omega⟩
  rw [lastDescendant_eq he.1 hle ht, coordinate_of_isCoordinate room, ok_bind,
    coordinate_of_isCoordinate last, ok_bind]
  exact ⟨_, rfl⟩

theorem Line.exists_lastDescendant {e : Line} {target : Nat} (he : e.Valid)
    (cube : Element.InCube e) (hle : e.level ≤ target) (ht : target ≤ depth) :
    ∃ d, e.lastDescendant target = .ok d := by
  obtain ⟨lower, (upper : e.x < 2 ^ depth)⟩ := Element.inCube_iff.mp cube e.x List.mem_cons_self
  have edge : (2 : Int) ^ (depth - e.level) ≤ 2 ^ depth :=
    pow_le_pow_right₀ (by decide) (Nat.sub_le _ _)
  have positive := Coord.two_pow_pos (depth - e.level)
  have whole : (2 : Int) ^ depth = 0x40000000 := rfl
  exact exists_lastDescendant_of_room he ⟨by omega, by omega⟩ hle ht

theorem Quad.exists_lastDescendant {e : Quad} {target : Nat} (he : e.Valid)
    (hle : e.level ≤ target) (ht : target ≤ depth) : ∃ d, e.lastDescendant target = .ok d := by
  obtain ⟨alignedX, alignedY⟩ := he.aligned
  have small : depth - e.level ≤ 31 := (Nat.sub_le _ _).trans (by decide)
  have finer : depth - target ≤ depth - e.level := Nat.sub_le_sub_left hle _
  refine ⟨⟨e.x + (2 ^ (depth - e.level) - 2 ^ (depth - target)),
    e.y + (2 ^ (depth - e.level) - 2 ^ (depth - target)), target⟩, ?_⟩
  rw [lastDescendant, require_of_true ⟨hle, ht⟩, ok_bind, edgeLen,
    Coord.cellLen_eq (by decide) he.1, ok_bind, Coord.cellLen_eq (by decide) ht, ok_bind,
    coordinate_of_isCoordinate (alignedX.isCoordinate_far small finer), ok_bind,
    coordinate_of_isCoordinate (alignedY.isCoordinate_far small finer), ok_bind, pure_eq_ok]

theorem Kuhn.exists_lastDescendant {K : Type} [Kuhn K] [LawfulKuhn K] {e : K} {target : Nat}
    (he : Valid e) (hle : level e ≤ target) (ht : target ≤ depth K) :
    ∃ d, lastDescendant e target = .ok d := by
  have small : depth K - level e ≤ 31 := (Nat.sub_le _ _).trans (depth_le.trans (by decide))
  have finer : depth K - target ≤ depth K - level e := Nat.sub_le_sub_left hle _
  have fits : ∀ c ∈ coords e, coordinate (c + (2 ^ (depth K - level e) - 2 ^ (depth K - target))) =
      .ok (c + (2 ^ (depth K - level e) - 2 ^ (depth K - target))) := fun c hc =>
    coordinate_of_isCoordinate ((he.aligned c hc).isCoordinate_far small finer)
  refine ⟨retype (mapCoords (fun _ c => c + (2 ^ (depth K - level e) - 2 ^ (depth K - target))) e)
    (type e) target, ?_⟩
  rw [lastDescendant, require_of_true ⟨hle, ht⟩, ok_bind, Coord.cellLen_eq depth_le he.1, ok_bind,
    Coord.cellLen_eq depth_le ht, ok_bind, mapM_eq_ok fits, ok_bind, pure_eq_ok]

namespace Element

/-- What a shape has to prove about where the last descendant can be computed. -/
class LawfulSubtree (E : Type) [Element E] [Grid E] : Prop extends LawfulWalk E where
  exists_lastDescendant {e : E} {l target : Nat} : Valid e → InCube e → level e = .ok l →
    l ≤ target → target ≤ finest E → ∃ d, lastDescendant e target = .ok d

export LawfulSubtree (exists_lastDescendant)

end Element

open Element

instance : LawfulSubtree Line where
  exists_lastDescendant he cube hl hle ht := by
    cases hl
    exact Line.exists_lastDescendant he cube hle ht

instance : LawfulSubtree Quad where
  exists_lastDescendant he _ hl hle ht := by
    cases hl
    exact Quad.exists_lastDescendant he hle ht

open Kuhn in
instance {K : Type} [Kuhn K] [DecidableEq K] [Element K] [KuhnElement K] [LawfulKuhn K]
    [Rooted K] [KuhnRoot K] [KuhnWalk K] [Grid K] : LawfulSubtree K where
  exists_lastDescendant {e l target} he _ hl hle ht := by
    cases (KuhnElement.level_eq e).symm.trans hl
    rw [finest_eq] at ht
    rw [KuhnWalk.lastDescendant_eq]
    exact exists_lastDescendant ((KuhnElement.valid_iff e).mp he) hle ht

theorem Prism.lastDescendant_of_factors {e : Prism} {tri : Triangle} {line : Line} {target : Nat}
    (he : e.Valid) (ht : target ≤ depth) (hT : Kuhn.lastDescendant e.tri target = .ok tri)
    (hN : e.line.lastDescendant target = .ok line) : e.lastDescendant target = .ok ⟨tri, line⟩ := by
  obtain ⟨_, lastT⟩ := Element.descends_of_lastDescendant (Valid.tri he) rfl hT
  obtain ⟨hle, lastN⟩ := Element.descends_of_lastDescendant (Valid.line he) rfl hN
  have levelT : tri.level = e.tri.level + (target - e.tri.level) := Except.ok.inj (lastT.level rfl)
  have levelN : line.level = e.line.level + (target - e.line.level) :=
    Except.ok.inj (lastN.level rfl)
  have same := he.1
  exact both_eq hT hN (by omega) (by omega)

theorem Prism.exists_lastDescendant {e : Prism} {target : Nat} (he : e.Valid)
    (cube : InCube e) (hle : e.tri.level ≤ target) (ht : target ≤ depth) :
    ∃ d, e.lastDescendant target = .ok d := by
  obtain ⟨cubeT, cubeN⟩ := Prism.inCube_iff.mp cube
  have fineT : target ≤ finest Triangle := ht.trans (by decide)
  have fineN : target ≤ finest Line := ht.trans (by decide)
  obtain ⟨tri, hT⟩ := Element.exists_lastDescendant (Valid.tri he) cubeT rfl hle fineT
  obtain ⟨line, hN⟩ := Element.exists_lastDescendant (Valid.line he) cubeN rfl (he.1 ▸ hle) fineN
  exact ⟨_, lastDescendant_of_factors he ht hT hN⟩

instance : LawfulSubtree Prism where
  exists_lastDescendant he cube hl hle ht := by
    cases (Prism.Valid.level_eq he).symm.trans hl
    exact Prism.exists_lastDescendant he cube hle ht

/-! ## Intervals -/

namespace Element

variable {E : Type} [Element E] {a b d e : E} {i j k l lo lo' hi hi' target : Nat}

/-- On a level the first descendant of `e` has the id `lo` and the last one `hi`. -/
def IdRange (e : E) (target lo hi : Nat) : Prop :=
  ∃ first last, firstDescendant e target = .ok first ∧ lastDescendant e target = .ok last ∧
    linearId first target = .ok lo ∧ linearId last target = .ok hi

theorem IdRange.unique (h : IdRange e target lo hi) (h' : IdRange e target lo' hi') :
    lo = lo' ∧ hi = hi' := by
  obtain ⟨first, last, down, down', number, number'⟩ := h
  obtain ⟨first', last', same, same', also, also'⟩ := h'
  cases down.symm.trans same
  cases down'.symm.trans same'
  exact ⟨Except.ok.inj (number.symm.trans also), Except.ok.inj (number'.symm.trans also')⟩

theorem linearId_of_descends_self [LawfulNumbering E] (h : Descends root l i e) :
    linearId e l = .ok i := by
  rw [linearId_of_descends h h.le_finest, idAt_self]

section

variable [Grid E] [LawfulBoundary E] [LawfulSubtree E]

theorem Descends.idRange (h : Descends root l i e) (hk : l + k ≤ finest E) :
    IdRange e (l + k) (i * branching E ^ k) (i * branching E ^ k + (branching E ^ k - 1)) := by
  obtain ⟨first, hfirst, below⟩ :=
    firstDescendant_of_valid h.valid_of_root h.level_of_root (Nat.le_add_right l k) hk
  obtain ⟨last, hlast⟩ := exists_lastDescendant h.valid_of_root (inCube_of_inRoot h.inRoot)
    h.level_of_root (Nat.le_add_right l k) hk
  obtain ⟨_, below'⟩ := descends_of_lastDescendant h.valid_of_root h.level_of_root hlast
  rw [Nat.add_sub_cancel_left] at below below'
  exact ⟨first, last, hfirst, hlast, linearId_of_descends_self (h.trans below),
    linearId_of_descends_self (h.trans below')⟩

theorem InRoot.exists_idRange (he : InRoot e) (hl : level e = .ok l) (hle : l ≤ target)
    (ht : target ≤ finest E) : ∃ lo hi, IdRange e target lo hi ∧ linearId e target = .ok lo ∧
      lo ≤ hi ∧ hi - lo + 1 = branching E ^ (target - l) := by
  obtain ⟨m, i, h⟩ := inRoot_iff.mp he
  obtain rfl := Except.ok.inj (hl.symm.trans h.level_of_root)
  obtain ⟨k, rfl⟩ := Nat.exists_eq_add_of_le hle
  have several : 0 < branching E ^ k := Nat.pow_pos (branching_pos E)
  refine ⟨_, _, h.idRange ht, ?_, Nat.le_add_right _ _, ?_⟩
  · rw [linearId_of_descends h ht, idAt_of_ge hle, Nat.add_sub_cancel_left]
  · rw [Nat.add_sub_cancel_left, Nat.add_sub_cancel_left, Nat.sub_add_cancel several]

/-- The elements of the level below `e` are those with an id in its interval. -/
theorem IdRange.below_iff (h : IdRange e target lo hi) (he : InRoot e)
    (hd : Descends root target j d) : Below e d ↔ lo ≤ j ∧ j ≤ hi := by
  obtain ⟨l, i, top⟩ := inRoot_iff.mp he
  have range := h
  obtain ⟨first, last, down, _⟩ := h
  obtain ⟨hle, ht⟩ := bounds_of_firstDescendant he.1 top.level_of_root down
  obtain ⟨k, rfl⟩ := Nat.exists_eq_add_of_le hle
  obtain ⟨rfl, rfl⟩ := range.unique (top.idRange ht)
  have several : 0 < branching E ^ k := Nat.pow_pos (branching_pos E)
  constructor
  · rintro ⟨m, n, below⟩
    obtain ⟨levels, rfl⟩ := hd.unique_of_root (top.trans below)
    obtain rfl : m = k := by omega
    have := below.lt
    omega
  · rintro ⟨lower, upper⟩
    obtain ⟨c, hc, below⟩ := hd.split
    have quotient : j / branching E ^ k = i := Nat.div_eq_of_lt_le lower (by
      rw [Nat.succ_mul]
      omega)
    rw [quotient] at hc
    rw [top.unique hc]
    exact ⟨_, _, below⟩

theorem IdRange.exists_ends (h : IdRange e target lo hi) (he : InRoot e) :
    ∃ first last, Descends root target lo first ∧ Below e first ∧
      Descends root target hi last ∧ Below e last := by
  obtain ⟨l, i, top⟩ := inRoot_iff.mp he
  have range := h
  obtain ⟨first, last, down, down', _⟩ := h
  obtain ⟨hle, ht⟩ := bounds_of_firstDescendant he.1 top.level_of_root down
  obtain ⟨k, rfl⟩ := Nat.exists_eq_add_of_le hle
  obtain ⟨rfl, rfl⟩ := range.unique (top.idRange ht)
  obtain ⟨first', same, below⟩ := firstDescendant_of_valid he.1 top.level_of_root hle ht
  cases down.symm.trans same
  obtain ⟨_, below'⟩ := descends_of_lastDescendant he.1 top.level_of_root down'
  rw [Nat.add_sub_cancel_left] at below below'
  exact ⟨first, last, top.trans below, ⟨_, _, below⟩, top.trans below', ⟨_, _, below'⟩⟩

theorem IdRange.le_of_below (h : IdRange a target lo hi) (h' : IdRange b target lo' hi')
    (ha : InRoot a) (hb : InRoot b) (below : Below a b) : lo ≤ lo' ∧ hi' ≤ hi := by
  obtain ⟨first, last, hfirst, under, hlast, under'⟩ := h'.exists_ends hb
  exact ⟨((h.below_iff ha hfirst).mp (below.trans under)).1,
    ((h.below_iff ha hlast).mp (below.trans under')).2⟩

/-- An id in both intervals would be that of an element below both. -/
theorem IdRange.disjoint_of_apart (h : IdRange a target lo hi) (h' : IdRange b target lo' hi')
    (ha : InRoot a) (hb : InRoot b) (apart : Apart a b) : hi < lo' ∨ hi' < lo := by
  have separate {d : E} (under : Below a d) (under' : Below b d) : False :=
    (under.comparable ha.1 hb.1 under').elim apart.1 apart.2
  obtain ⟨first, _, hfirst, under, _⟩ := h.exists_ends ha
  obtain ⟨first', _, hfirst', under', _⟩ := h'.exists_ends hb
  by_contra overlap
  rw [not_or, Nat.not_lt, Nat.not_lt] at overlap
  rcases Nat.le_total lo lo' with hle | hle
  · exact separate ((h.below_iff ha hfirst').mpr ⟨hle, overlap.1⟩) under'
  · exact separate under ((h'.below_iff hb hfirst).mpr ⟨hle, overlap.2⟩)

end

end Element

/-! ## Every shape -/

instance instLawfulSubtreeCarrier : (s : Shape) → LawfulSubtree s.Carrier
  | .line => inferInstanceAs (LawfulSubtree Line)
  | .quad => inferInstanceAs (LawfulSubtree Quad)
  | .triangle => inferInstanceAs (LawfulSubtree Triangle)
  | .tet => inferInstanceAs (LawfulSubtree Tet)
  | .prism => inferInstanceAs (LawfulSubtree Prism)

/-- The subtree of an element is an interval of every level below it: the interval holds as
many ids as the element has descendants there, and the elements with these ids are those
that have it as an ancestor.  Two elements are nested, and so are their intervals, or apart
with intervals apart. -/
theorem subtree_is_interval (s : Shape) {e : s.Carrier} (he : InRoot e) :
    ∃ l, level e = .ok l ∧ ∀ target, l ≤ target → target ≤ s.maxLevel →
      ∃ lo hi, IdRange e target lo hi ∧ linearId e target = .ok lo ∧ lo ≤ hi ∧
        hi - lo + 1 = s.numChildren ^ (target - l) ∧
        (∀ d, InRoot d → level d = .ok target → ∃ id, linearId d target = .ok id ∧
          Decides (isAncestor e d) (lo ≤ id ∧ id ≤ hi)) ∧
        ∀ e' l', InRoot e' → level e' = .ok l' → l' ≤ target →
          ∃ lo' hi', IdRange e' target lo' hi' ∧
            ((isAncestor e e' = .ok true ∧ lo ≤ lo' ∧ hi' ≤ hi) ∨
              (isAncestor e' e = .ok true ∧ lo' ≤ lo ∧ hi ≤ hi') ∨
              (isAncestor e e' = .ok false ∧ isAncestor e' e = .ok false ∧
                (hi < lo' ∨ hi' < lo))) := by
  rw [← finest_carrier, ← branching_carrier]
  obtain ⟨l, _, hl⟩ := level_of_valid he.1
  refine ⟨l, hl, ?_⟩
  intro target hle ht
  obtain ⟨lo, hi, range, start, order, size⟩ := he.exists_idRange hl hle ht
  refine ⟨lo, hi, range, start, order, size, ?_, ?_⟩
  · intro d hd level
    obtain ⟨m, j, down⟩ := inRoot_iff.mp hd
    obtain rfl := Except.ok.inj (level.symm.trans down.level_of_root)
    exact ⟨j, linearId_of_descends_self down,
      (isAncestor_of_valid he.1 hd.1).congr (range.below_iff he down)⟩
  · intro e' l' he' hl' hle'
    obtain ⟨lo', hi', range', _⟩ := he'.exists_idRange hl' hle' ht
    refine ⟨lo', hi', range', ?_⟩
    have test := isAncestor_of_valid he.1 he'.1
    have test' := isAncestor_of_valid he'.1 he.1
    by_cases below : Below e e'
    · exact .inl ⟨test.eq_true below, range.le_of_below range' he he' below⟩
    by_cases above : Below e' e
    · exact .inr (.inl ⟨test'.eq_true above, range'.le_of_below range he' he above⟩)
    · exact .inr (.inr ⟨test.eq_false below, test'.eq_false above,
        range.disjoint_of_apart range' he he' ⟨below, above⟩⟩)

/-- The fourth child of the root. -/
def middleTet : Tet := ⟨0x100000, 0, 0, 5, 1⟩

/-- The last descendant of `farTet` two levels down. -/
def cornerTet : Tet := ⟨0x1c0000, 0x1c0000, 0x1c0000, 0, 3⟩

theorem subtree_is_interval_tet :
    InRoot farTet ∧ IdRange farTet 3 448 511 ∧ 511 - 448 + 1 = Shape.numChildren .tet ^ 2 ∧
      InRoot cornerTet ∧ linearId cornerTet 3 = .ok 511 ∧ isAncestor farTet cornerTet = .ok true ∧
      InRoot middleTet ∧ IdRange middleTet 3 192 255 ∧ isAncestor farTet middleTet = .ok false := by
  have inside : InRoot farTet := ⟨by decide, by rfl⟩
  have corner : InRoot cornerTet := ⟨by decide, by rfl⟩
  have middle : InRoot middleTet := ⟨by decide, by rfl⟩
  have range : IdRange farTet 3 448 511 := ⟨_, cornerTet, rfl, rfl, rfl, rfl⟩
  have range' : IdRange middleTet 3 192 255 := ⟨_, _, rfl, rfl, rfl, rfl⟩
  have last : linearId cornerTet 3 = .ok 511 := rfl
  obtain ⟨l, hl, intervals⟩ := subtree_is_interval .tet inside
  obtain rfl : 1 = l := Except.ok.inj hl
  obtain ⟨lo, hi, same, _, _, size, members, others⟩ := intervals 3 (by decide) (by decide)
  obtain ⟨rfl, rfl⟩ := same.unique range
  obtain ⟨id, hid, test⟩ := members cornerTet corner rfl
  obtain rfl : 511 = id := Except.ok.inj (last.symm.trans hid)
  obtain ⟨lo', hi', same', compared⟩ := others middleTet 1 middle rfl (by decide)
  obtain ⟨rfl, rfl⟩ := same'.unique range'
  refine ⟨inside, range, size, corner, last, test.eq_true (by decide), middle, range', ?_⟩
  rcases compared with ⟨_, within⟩ | ⟨_, within⟩ | ⟨no, _⟩
  · exact absurd within (by decide)
  · exact absurd within (by decide)
  · exact no

end MeshCurve
