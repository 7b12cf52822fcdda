import MeshCurve.Proofs.Digit.Radix
import MeshCurve.Proofs.Walk.Nearest

/-!
# Quads as products of lines

A quad is a pair of lines of one level.  A child of it is a pair of children, so that the number
of a quad is woven from the numbers of its lines, on its own level and on any other.  Only on the
way up the two may part: two lines can have a nearest common ancestor that is finer than the quad
above both.
-/

namespace MeshCurve.Quad

open Element
open Radix (weave)

variable {a b c d p q : Quad} {i k l n target : Nat}

/-! ## Lines -/

def lineX (e : Quad) : Line := ⟨e.x, e.level⟩

def lineY (e : Quad) : Line := ⟨e.y, e.level⟩

theorem Valid.lineX (h : q.Valid) : q.lineX.Valid := ⟨h.1, h.2.1⟩

theorem Valid.lineY (h : q.Valid) : q.lineY.Valid := ⟨h.1, h.2.2⟩

theorem ext_of_lines (hx : a.lineX = b.lineX) (hy : a.lineY = b.lineY) : a = b := by
  cases a
  cases b
  cases hx
  cases hy
  rfl

theorem lineX_quadrant (hl : q.level < depth) (i : Nat) :
    q.lineX.child (i % 2) = .ok (q.quadrant i).lineX :=
  Line.child_eq hl (Nat.mod_lt i Nat.two_pos)

theorem lineY_quadrant (hl : q.level < depth) (hi : i < 4) :
    q.lineY.child (i / 2) = .ok (q.quadrant i).lineY := by
  have digit : i / 2 < 2 := by omega
  rw [Line.child_eq hl digit, lineY, quadrant, Nat.mod_eq_of_lt digit]
  rfl

theorem child_eq_ok_iff : q.child i = .ok c ↔
    q.lineX.child (i % 2) = .ok c.lineX ∧ q.lineY.child (i / 2) = .ok c.lineY := by
  constructor
  · intro h
    obtain ⟨hi, h'⟩ := of_require_bind h
    obtain ⟨hl, _⟩ := of_require_bind h'
    cases (child_eq hl hi).symm.trans h
    exact ⟨lineX_quadrant hl i, lineY_quadrant hl hi⟩
  · rintro ⟨hx, hy⟩
    obtain ⟨digit, h'⟩ := of_require_bind hy
    obtain ⟨hl, _⟩ := of_require_bind h'
    have hi : i < 4 := by omega
    have sameX := Except.ok.inj ((lineX_quadrant hl i).symm.trans hx)
    have sameY := Except.ok.inj ((lineY_quadrant hl hi).symm.trans hy)
    rw [child_eq hl hi, ext_of_lines sameX sameY]

theorem factors_of_descends (h : Descends p k n d) :
    ∃ s t, n = weave 2 2 k s t ∧ Descends p.lineX k s d.lineX ∧ Descends p.lineY k t d.lineY :=
  Radix.descends_pair (f := lineX) (g := lineY) rfl child_eq_ok_iff.mp h

/-! ## Ids -/

theorem radix_room (hl : l ≤ depth) : (2 * 2) ^ l ≤ wordBound :=
  calc (2 * 2) ^ l ≤ (2 * 2) ^ depth := Nat.pow_le_pow_right (by decide) hl
    _ ≤ wordBound := by decide

theorem linearId_of_lines (h : Descends root l i q) (ht : target ≤ depth) :
    ∃ s t, q.lineX.linearId target = .ok s ∧ q.lineY.linearId target = .ok t ∧
      Radix.interleave s 2 t 2 target = .ok (idAt 4 l i target) := by
  obtain ⟨s, t, rfl, hs, hm⟩ := factors_of_descends h
  have idX : q.lineX.linearId target = .ok (idAt 2 l s target) :=
    Element.linearId_of_descends (E := Line) hs ht
  have idY : q.lineY.linearId target = .ok (idAt 2 l t target) :=
    Element.linearId_of_descends (E := Line) hm ht
  refine ⟨_, _, idX, idY, ?_⟩
  rw [Radix.interleave_eq Nat.two_pos Nat.two_pos (by decide) (radix_room ht),
    Radix.weave_idAt Nat.two_pos Nat.two_pos]

theorem lines_of_linearId (h : Descends root l i q) :
    ∃ s t, Radix.deinterleave i 2 2 l = .ok (s, t) ∧ Line.ofLinearId l s = .ok q.lineX ∧
      Line.ofLinearId l t = .ok q.lineY := by
  have room := radix_room (Box.level_le_of_descends h)
  obtain ⟨s, t, rfl, hs, ht⟩ := factors_of_descends h
  exact ⟨s, t, Radix.deinterleave_weave Nat.two_pos Nat.two_pos (by decide) room hs.lt ht.lt,
    ofLinearId_of_descends (E := Line) hs, ofLinearId_of_descends (E := Line) ht⟩

/-! ## Ancestors -/

theorem sharedLevel_pair (d m : Nat) (x y x' y' : Int) : Coord.sharedLevel d m [x, y] [x', y'] =
    min (Coord.sharedLevel d m [x] [x']) (Coord.sharedLevel d m [y] [y']) := by
  simp only [Coord.sharedLevel, List.zip_cons_cons, List.zip_nil_left, List.map_cons, List.map_nil,
    List.foldl_cons, List.foldl_nil]
  omega

theorem nca_of_lines (ha : a.Valid) (b : Quad) :
    ∃ n nx ny, a.nca b = .ok n ∧ a.lineX.nca b.lineX = .ok nx ∧ a.lineY.nca b.lineY = .ok ny ∧
      nx.ancestor (min nx.level ny.level) = .ok n.lineX ∧
      ny.ancestor (min nx.level ny.level) = .ok n.lineY := by
  have foundX := Box.nca_eq (B := Line) ha.lineX b.lineX
  have foundY := Box.nca_eq (B := Line) ha.lineY b.lineY
  have shared := sharedLevel_pair depth (min a.level b.level) a.x a.y b.x b.y
  refine ⟨_, _, _, Box.nca_eq ha b, foundX, foundY, ?_, ?_⟩
  · refine (Box.ancestor_nca (B := Line) ha.lineX foundX (Nat.min_le_left _ _)).trans ?_
    exact congrArg (fun l => Except.ok (Box.cutAt a.lineX l)) shared.symm
  · refine (Box.ancestor_nca (B := Line) ha.lineY foundY (Nat.min_le_right _ _)).trans ?_
    exact congrArg (fun l => Except.ok (Box.cutAt a.lineY l)) shared.symm

/-! ## Products -/

/-- A quad of the root is the product of its two lines: its id is interleaved from theirs, taking
apart the next id leads to the lines of the next quad, and going down goes down on both.  Going up
to what two quads have in common does so too, but stops where one of the lines stops. -/
theorem factors_into_lines (hq : InRoot q) :
    (∀ l ≤ depth, ∃ s t id, q.lineX.linearId l = .ok s ∧ q.lineY.linearId l = .ok t ∧
      Radix.interleave s 2 t 2 l = .ok id ∧ q.linearId l = .ok id ∧
      (1 ≤ l → if id + 1 = 4 ^ l then q.successor l = .error .contract else
        ∃ n s t, q.successor l = .ok n ∧ Radix.deinterleave (id + 1) 2 2 l = .ok (s, t) ∧
          Line.ofLinearId l s = .ok n.lineX ∧ Line.ofLinearId l t = .ok n.lineY)) ∧
    (∀ i, (i < 4 → q.level < depth → ∃ c, q.child i = .ok c) ∧ ∀ c, q.child i = .ok c ↔
      q.lineX.child (i % 2) = .ok c.lineX ∧ q.lineY.child (i / 2) = .ok c.lineY) ∧
    ∀ r, ∃ n nx ny, q.nca r = .ok n ∧ q.lineX.nca r.lineX = .ok nx ∧
      q.lineY.nca r.lineY = .ok ny ∧ nx.ancestor (min nx.level ny.level) = .ok n.lineX ∧
      ny.ancestor (min nx.level ny.level) = .ok n.lineY := by
  obtain ⟨m, i, down⟩ := Element.inRoot_iff.mp hq
  refine ⟨fun l hl => ?_, fun i => ⟨fun hi hlt => ⟨_, child_eq hlt hi⟩, fun c => child_eq_ok_iff⟩,
    nca_of_lines hq.1⟩
  obtain ⟨s, t, hs, ht, woven⟩ := linearId_of_lines down hl
  refine ⟨s, t, _, hs, ht, woven, linearId_of_descends (E := Quad) down hl, fun h1 => ?_⟩
  have next : SuccessorLaw q m i l := successor_of_descends down h1 hl
  unfold SuccessorLaw at next
  split
  · next last => exact (if_pos last).mp next
  · next room =>
      obtain ⟨n, step, below⟩ := (if_neg room).mp next
      obtain ⟨s, t, apart, hx, hy⟩ := lines_of_linearId below
      exact ⟨n, s, t, step, apart, hx, hy⟩

/-- Two quads side by side.  They lie over one line of the second axis; of the lines on the first
axis that theirs are in, only those up to level 1 are the same. -/
def leftQuad : Quad := ⟨0x20000000, 0x10000000, 2⟩

def rightQuad : Quad := ⟨0x30000000, 0x10000000, 2⟩

theorem factors_into_lines_left :
    InRoot leftQuad ∧ leftQuad.linearId 3 = .ok 24 ∧
      Radix.deinterleave 25 2 2 3 = .ok (5, 2) ∧
      (∃ n, leftQuad.successor 3 = .ok n ∧ Line.ofLinearId 3 5 = .ok n.lineX ∧
        Line.ofLinearId 3 2 = .ok n.lineY) ∧
      ∃ n, leftQuad.nca rightQuad = .ok n ∧ Line.ancestor ⟨0x20000000, 1⟩ 1 = .ok n.lineX ∧
        Line.ancestor ⟨0x10000000, 2⟩ 1 = .ok n.lineY := by
  have inside : InRoot leftQuad := ⟨by decide, rfl⟩
  obtain ⟨ids, _, ncas⟩ := factors_into_lines inside
  have here : leftQuad.linearId 3 = .ok 24 := rfl
  have apart : Radix.deinterleave 25 2 2 3 = .ok (5, 2) := rfl
  obtain ⟨_, _, id, _, _, _, own, next⟩ := ids 3 (by decide)
  cases here.symm.trans own
  obtain ⟨n, _, _, step, pair, hx, hy⟩ := (if_neg (by decide)).mp (next (by decide))
  cases apart.symm.trans pair
  have meetX : leftQuad.lineX.nca rightQuad.lineX = .ok ⟨0x20000000, 1⟩ := rfl
  have meetY : leftQuad.lineY.nca rightQuad.lineY = .ok ⟨0x10000000, 2⟩ := rfl
  obtain ⟨m, nx, ny, found, foundX, foundY, upX, upY⟩ := ncas rightQuad
  cases meetX.symm.trans foundX
  cases meetY.symm.trans foundY
  exact ⟨inside, here, apart, ⟨n, step, hx, hy⟩, m, found, upX, upY⟩

end MeshCurve.Quad
