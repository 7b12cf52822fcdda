import MeshCurve.Proofs.Grid.RedRefinement
import MeshCurve.Proofs.Walk.Subtree

/-!
# Next to the root

The neighbour of an element of the root may lie outside the root, but not far from it, and
its anchor, its vertices and its descendants still fit their words.  There is one exception:
a line adds its whole length to its anchor before it goes back to the last descendant, and
for the line that follows the root this sum is the first number that does not fit.
-/

namespace MeshCurve

/-- A cell of the first `2 ^ d` coordinates ends there. -/
theorem Coord.Aligned.add_le {c : Int} {k d : Nat} (h : Aligned c k) (hk : k ≤ d)
    (hc : c < 2 ^ d) : c + 2 ^ k ≤ 2 ^ d := by
  have divides : (2 : Int) ^ k ∣ 2 ^ d - c :=
    Int.dvd_sub (pow_dvd_pow 2 hk) ⟨c / 2 ^ k, by rw [mul_comm]; exact h.eq_mul⟩
  have := Int.le_of_dvd (by omega) divides
  omega

/-! ## Last descendants -/

namespace Element

/-- Level and face of an element of the root whose neighbour ends where the words do. -/
def Overruns (s : Shape) (l f : Nat) : Prop := l = 0 ∧ (s = .line ∧ f = 1 ∨ s = .prism ∧ f = 4)

instance (s : Shape) (l f : Nat) : Decidable (Overruns s l f) :=
  inferInstanceAs (Decidable (_ ∧ _))

theorem level_of_faceNeighbor {E : Type} [Element E] [Grid E] [LawfulGrid E] {e n : E}
    {l f d : Nat} (he : Valid e) (hl : level e = .ok l) (hf : f < (shape E).numFaces)
    (hn : faceNeighbor e f = .ok (n, d)) : level n = .ok l :=
  (faceNeighbor_back he hf hn).2.1.trans hl

/-- What a shape has to prove about the neighbours of the elements in its cube. -/
class LawfulOutskirts (E : Type) [Element E] [Grid E] : Prop extends LawfulSubtree E where
  exists_vertexCoords {e n : E} {f d v : Nat} : Valid e → InCube e → f < (shape E).numFaces →
    faceNeighbor e f = .ok (n, d) → v < (shape E).numVertices → ∃ p, vertexCoords n v = .ok p
  lastDescendant_neighbor {e n : E} {f d l target : Nat} : Valid e → InCube e →
    level e = .ok l → f < (shape E).numFaces → faceNeighbor e f = .ok (n, d) → l ≤ target →
      target ≤ finest E →
        if Overruns (shape E) l f then lastDescendant n target = .error .range
        else ∃ x, lastDescendant n target = .ok x

export LawfulOutskirts (exists_vertexCoords lastDescendant_neighbor)

/-- A line has too many levels, and a prism more vertices than faces. -/
theorem shape_of_cornered {E : Type} [Element E] [Anchored E] [Grid E] [Axial (Corner E)]
    [Cornered E] [LawfulCornered E] : shape E ≠ .line ∧ shape E ≠ .prism := by
  have fine := finest_lt (E := E)
  have opposite := numVertices_eq (E := E)
  constructor
  · intro line
    rw [finest, line] at fine
    exact absurd fine (by decide)
  · intro prism
    rw [prism] at opposite
    exact absurd opposite (by decide)

/-- Shapes without a line as a factor have no such neighbours. -/
theorem lastDescendant_neighbor_of_valid {E : Type} [Element E] [Grid E] [LawfulGrid E] {e n : E}
    {l f d target : Nat} (hs : shape E ≠ .line ∧ shape E ≠ .prism) (he : Valid e)
    (hl : level e = .ok l) (hf : f < (shape E).numFaces) (hn : faceNeighbor e f = .ok (n, d))
    (last : Valid n → level n = .ok l → ∃ x, lastDescendant n target = .ok x) :
    if Overruns (shape E) l f then lastDescendant n target = .error .range
    else ∃ x, lastDescendant n target = .ok x := by
  have room : ¬ Overruns (shape E) l f := by
    rintro ⟨_, ⟨line, _⟩ | ⟨prism, _⟩⟩
    · exact hs.1 line
    · exact hs.2 prism
  rw [if_neg room]
  exact last (faceNeighbor_back he hf hn).1 (level_of_faceNeighbor he hl hf hn)

end Element

open Element

namespace Line

variable {e n : Line} {f d v target : Nat}

theorem exists_vertexCoords (hl : e.level ≤ depth) (hv : v < 2) :
    ∃ p, e.vertexCoords v = .ok p := by
  rw [vertexCoords, require_of_true hv, ok_bind, edgeLen, Coord.cellLen_eq (by decide) hl, ok_bind]
  exact ⟨_, rfl⟩

theorem x_of_faceNeighbor (hl : e.level ≤ depth) (hn : e.faceNeighbor f = .ok (n, d)) :
    n.x = if f = 0 then e.x - 2 ^ (depth - e.level) else e.x + 2 ^ (depth - e.level) := by
  obtain ⟨_, hn⟩ := of_require_bind hn
  rw [edgeLen, Coord.cellLen_eq (by decide) hl, ok_bind] at hn
  obtain ⟨x, hx, made⟩ := bind_eq_ok_iff.mp hn
  cases made
  exact (coordinate_eq_ok_iff.mp hx).2.symm

/-- The end of the neighbour of the root is the only one that does not fit. -/
theorem lastDescendant_neighbor (he : e.Valid) (cube : InCube e) (hf : f < 2)
    (hn : e.faceNeighbor f = .ok (n, d)) (hle : e.level ≤ target) (ht : target ≤ depth) :
    if e.level = 0 ∧ f = 1 then n.lastDescendant target = .error .range
    else ∃ x, n.lastDescendant target = .ok x := by
  have validN : n.Valid := valid_of_faceNeighbor (E := Line) he hn
  have level : n.level = e.level := Except.ok.inj (level_of_faceNeighbor (E := Line) he rfl hf hn)
  have start := x_of_faceNeighbor he.1 hn
  obtain ⟨lower, (upper : e.x < 2 ^ depth)⟩ := inCube_iff.mp cube e.x List.mem_cons_self
  have last : e.x + 2 ^ (depth - e.level) ≤ 2 ^ depth :=
    he.aligned.add_le (Nat.sub_le _ _) upper
  have whole : (2 : Int) ^ depth = 0x40000000 := rfl
  have positive := Coord.two_pow_pos (depth - e.level)
  rw [← level] at hle
  by_cases overrun : e.level = 0 ∧ f = 1
  · obtain ⟨bottom, rfl⟩ := overrun
    have edge : (2 : Int) ^ (depth - e.level) = 2 ^ depth :=
      congrArg (fun l => 2 ^ (depth - l)) bottom
    have beyond : ¬ IsCoordinate (n.x + 2 ^ (depth - n.level)) := by
      rw [start, level, if_neg Nat.one_ne_zero]
      rintro ⟨_, _⟩
      omega
    rw [if_pos ⟨bottom, rfl⟩, lastDescendant_eq validN.1 hle ht, coordinate, if_neg beyond,
      error_bind]
  · have room : IsCoordinate (n.x + 2 ^ (depth - n.level)) := by
      rw [start, level]
      by_cases first : f = 0
      · rw [if_pos first]
        exact ⟨by omega, by omega⟩
      · have low : depth - e.level ≤ 29 := Nat.sub_le_sub_left (n := 1) (by omega) 30
        have edge : (2 : Int) ^ (depth - e.level) ≤ 2 ^ 29 := pow_le_pow_right₀ (by decide) low
        rw [if_neg first]
        exact ⟨by omega, by omega⟩
    rw [if_neg overrun]
    exact exists_lastDescendant_of_room validN room hle ht

instance : LawfulOutskirts Line where
  exists_vertexCoords {e n f d v} he _ hf hn hv := by
    have validN := valid_of_faceNeighbor he hn
    exact exists_vertexCoords validN.1 hv
  lastDescendant_neighbor {e n f d l target} he cube hl hf hn hle ht := by
    cases hl
    have ends := lastDescendant_neighbor he cube hf hn hle ht
    have shape : Overruns .line e.level f ↔ e.level = 0 ∧ f = 1 := by simp [Overruns]
    exact (if_congr shape rfl rfl).mpr ends

end Line

namespace Quad

instance : LawfulOutskirts Quad where
  exists_vertexCoords he _ _ hn hv := by
    have fits : Element.Valid _ := valid_of_faceNeighbor he hn
    have edge := Coord.cellLen_eq (by decide : depth ≤ 30) fits.1
    exact ⟨_, bind_eq_ok_iff.mpr ⟨(), require_of_true hv, bind_eq_ok_iff.mpr ⟨_, edge, rfl⟩⟩⟩
  lastDescendant_neighbor he _ hl hf hn hle ht :=
    lastDescendant_neighbor_of_valid (by decide) he hl hf hn fun validN levelN => by
      cases levelN
      exact exists_lastDescendant validN hle ht

end Quad

open Kuhn in
instance {K : Type} [Kuhn K] [DecidableEq K] [Element K] [KuhnElement K] [LawfulKuhn K]
    [Rooted K] [KuhnRoot K] [KuhnWalk K] [Grid K] [Axial (Corner K)] [Cornered K]
    [LawfulCornered K] : LawfulOutskirts K where
  exists_vertexCoords he cube hf hn hv := by
    obtain ⟨l, _, hl⟩ := level_of_valid he
    exact exists_vertexCoords_of_near (valid_of_faceNeighbor he hn)
      (level_of_faceNeighbor he hl hf hn) (near_of_faceNeighbor he cube hf hn) hv
  lastDescendant_neighbor {e n f d l target} he _ hl hf hn hle ht :=
    lastDescendant_neighbor_of_valid shape_of_cornered he hl hf hn fun validN levelN => by
      cases (KuhnElement.level_eq n).symm.trans levelN
      rw [finest_eq] at ht
      rw [KuhnWalk.lastDescendant_eq]
      exact Kuhn.exists_lastDescendant ((KuhnElement.valid_iff n).mp validN) hle ht

namespace Prism

variable {e n : Prism} {f d v target : Nat}

/-- One factor is crossed, the other stays. -/
theorem factors_of_faceNeighbor (hf : f < 5) (hn : e.faceNeighbor f = .ok (n, d)) :
    (f < 3 ∧ n.line = e.line ∧ ∃ d', e.tri.faceNeighbor f = .ok (n.tri, d')) ∨
      ∃ g < 2, f = 3 + g ∧ n.tri = e.tri ∧ ∃ d', e.line.faceNeighbor g = .ok (n.line, d') := by
  by_cases side : f < 3
  · rw [faceNeighbor_side side] at hn
    obtain ⟨⟨tri, d'⟩, cross, hn⟩ := bind_eq_ok_iff.mp hn
    obtain ⟨p, made, hn⟩ := bind_eq_ok_iff.mp hn
    cases hn
    obtain ⟨_, _, rfl⟩ := ofFactors_eq_ok_iff.mp made
    exact .inl ⟨side, rfl, d', cross⟩
  · obtain ⟨g, rfl⟩ := Nat.exists_eq_add_of_le (Nat.le_of_not_lt side)
    have hg : g < 2 := by omega
    rw [faceNeighbor_end hg] at hn
    obtain ⟨⟨line, d'⟩, cross, hn⟩ := bind_eq_ok_iff.mp hn
    obtain ⟨p, made, hn⟩ := bind_eq_ok_iff.mp hn
    cases hn
    obtain ⟨_, _, rfl⟩ := ofFactors_eq_ok_iff.mp made
    exact .inr ⟨g, hg, rfl, rfl, d', cross⟩

theorem exists_vertexCoords (he : e.Valid) (cube : InCube e) (hf : f < 5)
    (hn : e.faceNeighbor f = .ok (n, d)) (hv : v < 6) : ∃ r, n.vertexCoords v = .ok r := by
  obtain ⟨cubeT, _⟩ := inCube_iff.mp cube
  have validN : n.Valid := valid_of_faceNeighbor (E := Prism) he hn
  have vertices : ∃ p, n.tri.vertexCoords (v % 3) = .ok p := by
    have hv : v % 3 < 3 := Nat.mod_lt v (by decide)
    rcases factors_of_faceNeighbor hf hn with ⟨side, _, _, cross⟩ | ⟨_, _, _, own, _⟩
    · exact exists_vertexCoords_of_near validN.tri rfl
        (near_of_faceNeighbor he.tri cubeT side cross) hv
    · rw [own]
      exact exists_vertexCoords_of_near he.tri rfl (near_of_inCube cubeT) hv
  obtain ⟨_, hp⟩ := vertices
  obtain ⟨_, hq⟩ := Line.exists_vertexCoords (v := v / 3) validN.line.1 (by omega)
  rw [vertexCoords, require_of_true hv, ok_bind]
  exact ⟨_, bind_eq_ok_iff.mpr ⟨_, hp, bind_eq_ok_iff.mpr ⟨_, hq, rfl⟩⟩⟩

/-- The end of a prism is where its line ends. -/
theorem lastDescendant_neighbor (he : e.Valid) (cube : InCube e) (hf : f < 5)
    (hn : e.faceNeighbor f = .ok (n, d)) (hle : e.tri.level ≤ target) (ht : target ≤ depth) :
    if e.tri.level = 0 ∧ f = 4 then n.lastDescendant target = .error .range
    else ∃ x, n.lastDescendant target = .ok x := by
  obtain ⟨cubeT, cubeN⟩ := inCube_iff.mp cube
  have validN : n.Valid := valid_of_faceNeighbor (E := Prism) he hn
  have level : n.tri.level = e.tri.level := by
    have same := level_of_faceNeighbor (E := Prism) he (Valid.level_eq he) hf hn
    exact Except.ok.inj ((Valid.level_eq validN).symm.trans same)
  have below : n.tri.level ≤ target := level ▸ hle
  have fineN : target ≤ Line.depth := ht.trans (by decide)
  obtain ⟨tri, hT⟩ := Kuhn.exists_lastDescendant validN.tri below (ht.trans (by decide))
  rcases factors_of_faceNeighbor hf hn with ⟨side, own, _⟩ | ⟨g, hg, rfl, own, d', cross⟩
  · obtain ⟨line, hN⟩ :=
      Line.exists_lastDescendant validN.line (own ▸ cubeN) (validN.1 ▸ below) fineN
    rw [if_neg fun overrun => absurd overrun.2 (by omega)]
    exact ⟨_, lastDescendant_of_factors validN ht hT hN⟩
  · have line := Line.lastDescendant_neighbor he.line cubeN hg cross (he.1 ▸ hle) fineN
    by_cases overrun : e.line.level = 0 ∧ g = 1
    · obtain ⟨bottom, rfl⟩ := overrun
      rw [if_pos ⟨bottom, rfl⟩] at line
      rw [if_pos ⟨he.1.trans bottom, rfl⟩, lastDescendant, hT, ok_bind, line, error_bind]
    · rw [if_neg overrun] at line
      obtain ⟨line, hN⟩ := line
      rw [if_neg fun both => overrun ⟨he.1.symm.trans both.1, by omega⟩]
      exact ⟨_, lastDescendant_of_factors validN ht hT hN⟩

instance : LawfulOutskirts Prism where
  exists_vertexCoords := exists_vertexCoords
  lastDescendant_neighbor {e n f d l target} he cube hl hf hn hle ht := by
    cases (Valid.level_eq he).symm.trans hl
    have ends := lastDescendant_neighbor he cube hf hn hle ht
    have shape : Overruns .prism e.tri.level f ↔ e.tri.level = 0 ∧ f = 4 := by simp [Overruns]
    exact (if_congr shape rfl rfl).mpr ends

end Prism

/-! ## Every shape -/

instance instLawfulOutskirtsCarrier : (s : Shape) → LawfulOutskirts s.Carrier
  | .line => inferInstanceAs (LawfulOutskirts Line)
  | .quad => inferInstanceAs (LawfulOutskirts Quad)
  | .triangle => inferInstanceAs (LawfulOutskirts Triangle)
  | .tet => inferInstanceAs (LawfulOutskirts Tet)
  | .prism => inferInstanceAs (LawfulOutskirts Prism)

/-- Wherever an element of the root is left, the neighbour there has its vertices, its
children and its first descendants.  It has its last descendants too, except that these do
not fit their words beyond the end of the line that is the root, and beyond the top of the
prism that is the root. -/
theorem neighbor_in_outskirts (s : Shape) {e : s.Carrier} (he : InRoot e) {l f : Nat}
    (hl : level e = .ok l) (hf : f < s.numFaces) :
    ∃ n d, faceNeighbor e f = .ok (n, d) ∧ level n = .ok l ∧
      (∀ v < s.numVertices, ∃ p, vertexCoords n v = .ok p) ∧
      (l < s.maxLevel → ∃ cs, children n = .ok cs) ∧
      ∀ target, l ≤ target → target ≤ s.maxLevel →
        (∃ first, firstDescendant n target = .ok first ∧ level first = .ok target ∧
          ancestor first l = .ok n) ∧
        if Overruns s l f then lastDescendant n target = .error .range
        else ∃ last, lastDescendant n target = .ok last ∧ level last = .ok target ∧
          ancestor last l = .ok n := by
  have cube := inCube_of_inRoot he
  rw [← numFaces_carrier] at hf
  obtain ⟨n, d, hn⟩ := exists_faceNeighbor he.1 cube hf
  have validN := valid_of_faceNeighbor he.1 hn
  have levelN := level_of_faceNeighbor he.1 hl hf hn
  refine ⟨n, d, hn, levelN, ?_, ?_, ?_⟩
  · intro v hv
    rw [← shape_carrier s] at hv
    exact exists_vertexCoords he.1 cube hf hn hv
  · rw [← finest_carrier]
    exact exists_children validN levelN
  · intro target hle ht
    rw [← finest_carrier] at ht
    have back : l + (target - l) = target := Nat.add_sub_cancel' hle
    obtain ⟨first, hfirst, down⟩ := firstDescendant_of_valid validN levelN hle ht
    have ends := lastDescendant_neighbor he.1 cube hl hf hn hle ht
    rw [shape_carrier] at ends
    refine ⟨⟨first, hfirst, back ▸ down.level levelN, down.ancestor validN levelN⟩, ?_⟩
    split_ifs at ends ⊢ with overrun
    · exact ends
    · obtain ⟨last, hlast⟩ := ends
      obtain ⟨_, down'⟩ := descends_of_lastDescendant validN levelN hlast
      exact ⟨last, hlast, back ▸ down'.level levelN, down'.ancestor validN levelN⟩

/-- The prism below the root. -/
def cellar : Prism := ⟨Triangle.root, ⟨-0x40000000, 0⟩⟩

theorem neighbor_in_outskirts_prism :
    InRoot Prism.root ∧ faceNeighbor Prism.root 3 = .ok (cellar, 4) ∧ ¬ InRoot cellar ∧
      (∃ p, vertexCoords cellar 5 = .ok p) ∧ (∃ cs, children cellar = .ok cs) ∧
      ∃ last, lastDescendant cellar 21 = .ok last ∧ level last = .ok 21 ∧
        ancestor last 0 = .ok cellar := by
  have inside : InRoot Prism.root := ⟨by decide, by rfl⟩
  have below : faceNeighbor Prism.root 3 = .ok (cellar, 4) := by rfl
  obtain ⟨n, d, cross, _, vertices, family, descendants⟩ :=
    neighbor_in_outskirts .prism inside (l := 0) (f := 3) rfl (by decide)
  cases below.symm.trans cross
  obtain ⟨_, last⟩ := descendants 21 (by decide) (by decide)
  rw [if_neg (by decide)] at last
  have outside : ¬ InRoot cellar := fun h => absurd h.2 (by decide)
  exact ⟨inside, below, outside, vertices 5 (by decide), family (by decide), last⟩

/-- The line after the root is a neighbour without a last descendant, on its own level too. -/
theorem lastDescendant_beyond_root :
    InRoot Line.root ∧ faceNeighbor Line.root 1 = .ok (⟨0x40000000, 0⟩, 0) ∧
      Valid (⟨0x40000000, 0⟩ : Line) ∧
        lastDescendant (⟨0x40000000, 0⟩ : Line) 0 = .error .range := by
  exact ⟨⟨by decide, by rfl⟩, by rfl, by decide, by rfl⟩

end MeshCurve
