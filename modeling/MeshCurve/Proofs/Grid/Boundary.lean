import MeshCurve.Proofs.Grid.Conformity
import MeshCurve.Proofs.Grid.RootFaces

/-!
# The boundary of the root

Inside the root every face can be crossed, and it is part of the boundary of the root
exactly if the cell on its other side is outside.
-/

namespace MeshCurve.Element

variable {E : Type} [Element E]

theorem isInsideRoot_decides_inRoot [LawfulNumbering E] {e : E} (he : Valid e) :
    Decides (isInsideRoot e) (InRoot e) := by
  obtain ⟨b, test, _⟩ := isInsideRoot_of_valid he
  refine ⟨b, test, fun yes => ⟨he, yes ▸ test⟩, ?_⟩
  rintro ⟨_, inside⟩
  exact Except.ok.inj (test.symm.trans inside)

/-- What a shape has to prove about the boundary of its root. -/
class LawfulBoundary (E : Type) [Element E] [Grid E] : Prop extends LawfulGrid E where
  isRootBoundary_of_inRoot {e n : E} {f d : Nat} : InRoot e → f < (shape E).numFaces →
    faceNeighbor e f = .ok (n, d) → Decides (isRootBoundary e f) (¬ InRoot n)

export LawfulBoundary (isRootBoundary_of_inRoot)

section

variable [LawfulNumbering E] [Grid E] [LawfulBoundary E] {e : E} {f : Nat}

theorem exists_faceNeighborInside (he : InRoot e) (hf : f < (shape E).numFaces) :
    ∃ boundary neighbor, isRootBoundary e f = .ok boundary ∧
      faceNeighborInside e f = .ok neighbor ∧ (boundary = true ↔ neighbor = none) := by
  obtain ⟨n, d, hn⟩ := exists_faceNeighbor he.1 (inCube_of_inRoot he) hf
  have validN := (faceNeighbor_back he.1 hf hn).1
  obtain ⟨boundary, test, outside⟩ := isRootBoundary_of_inRoot he hf hn
  obtain ⟨inside, test', inRoot⟩ := isInsideRoot_decides_inRoot validN
  refine ⟨boundary, if inside then some (n, d) else none, test, ?_, ?_⟩
  · rw [faceNeighborInside, hn, ok_bind, test', ok_bind, pure_eq_ok]
  · rw [outside, ← inRoot]
    cases inside <;> simp

end

end MeshCurve.Element

/-! ## Boxes -/

namespace MeshCurve.Coord

theorem within_iff (c m : Int) (k : Nat) :
    0 ≤ c ∧ c < m * 2 ^ k ↔ 0 ≤ c / 2 ^ k ∧ c / 2 ^ k < m := by
  rw [Int.ediv_lt_iff_lt_mul (two_pow_pos k), Int.ediv_nonneg_iff_of_pos (two_pow_pos k)]

theorem Aligned.eq_mul_iff {c : Int} {k : Nat} (h : Aligned c k) (m : Int) :
    c = m * 2 ^ k ↔ c / 2 ^ k = m := by
  conv_lhs => rw [h.eq_mul]
  exact mul_left_inj' (two_pow_pos k).ne'

theorem Aligned.eq_zero_iff {c : Int} {k : Nat} (h : Aligned c k) : c = 0 ↔ c / 2 ^ k = 0 := by
  rw [← h.eq_mul_iff, Int.zero_mul]

/-- The last cell of the cube ends where the cube does. -/
theorem Aligned.eq_last_iff {c : Int} {l d : Nat} (h : Aligned c (d - l)) (hl : l ≤ d) :
    c = 2 ^ d - 2 ^ (d - l) ↔ c / 2 ^ (d - l) = 2 ^ l - 1 := by
  rw [← h.eq_mul_iff, Int.sub_mul, Int.one_mul, ← two_pow_eq_mul hl]

end MeshCurve.Coord

namespace MeshCurve.Box

open Element

theorem inRoot_iff_corner {B : Type} [Element B] [Box B] [LawfulBox B] [BoxCurve B] [Grid B]
    [Axial (Corner B)] [AnchoredGrid B] {e : B} (he : Valid e) :
    InRoot e ↔ ∀ p ∈ entries (site e).corner, 0 ≤ p ∧ p < 2 ^ level e := by
  rw [inRoot_iff_of_decides he (isInsideRoot_decides e), entries_site (LawfulBox.level_eq e),
    List.forall_mem_map]
  refine forall₂_congr fun c _ => ?_
  rw [Coord.two_pow_eq_mul (valid_iff.mp he).1, Coord.within_iff]

end MeshCurve.Box

namespace MeshCurve.Line

open Element

variable {e n : Line} {f d : Nat}

theorem inRoot_iff (he : e.Valid) :
    InRoot e ↔ 0 ≤ e.toSite.corner ∧ e.toSite.corner < 2 ^ e.level :=
  (Box.inRoot_iff_corner he).trans List.forall_mem_singleton

theorem isRootBoundary_decides (he : e.Valid) (hf : f < 2) : Decides (e.isRootBoundary f)
    (e.toSite.corner = if f = 0 then 0 else 2 ^ e.level - 1) := by
  have edge : e.edgeLen = .ok (2 ^ (depth - e.level)) := Coord.cellLen_eq (by decide) he.1
  rw [isRootBoundary, require_of_true hf, ok_bind]
  interval_cases f
  · exact decides_of_ok.congr he.aligned.eq_zero_iff
  · exact .after edge (decides_of_ok.congr (he.aligned.eq_last_iff he.1))

instance : LawfulBoundary Line where
  isRootBoundary_of_inRoot {e n f d} he hf hn := by
    obtain ⟨validN, levelN, there⟩ := (faceNeighbor_eq_ok_iff he.1 rfl hf).mp hn
    have siteN : n.toSite = (layout.beyond e.toSite f).1 := congrArg Prod.fst there
    have inside := (inRoot_iff he.1).mp he
    have hf : f < 2 := hf
    refine (isRootBoundary_decides he.1 hf).congr ?_
    rw [inRoot_iff validN, siteN, Except.ok.inj levelN]
    interval_cases f <;> simp [layout, Pattern.beyond, Site.shift] <;> omega

end MeshCurve.Line

namespace MeshCurve.Quad

open Element

variable {e n : Quad} {f d : Nat}

theorem inRoot_iff (he : e.Valid) :
    InRoot e ↔ (0 ≤ e.toSite.corner.1 ∧ e.toSite.corner.1 < 2 ^ e.level) ∧
      0 ≤ e.toSite.corner.2 ∧ e.toSite.corner.2 < 2 ^ e.level :=
  (Box.inRoot_iff_corner he).trans forall_mem_pair

theorem isRootBoundary_decides (he : e.Valid) (hf : f < 4) : Decides (e.isRootBoundary f)
    ((if f < 2 then e.toSite.corner.1 else e.toSite.corner.2) =
      if f % 2 = 0 then 0 else 2 ^ e.level - 1) := by
  have edge : e.edgeLen = .ok (2 ^ (depth - e.level)) := Coord.cellLen_eq (by decide) he.1
  obtain ⟨alignedX, alignedY⟩ := he.aligned
  refine .after edge ?_
  interval_cases f
  · exact decides_of_ok.congr alignedX.eq_zero_iff
  · exact decides_of_ok.congr (alignedX.eq_last_iff he.1)
  · exact decides_of_ok.congr alignedY.eq_zero_iff
  · exact decides_of_ok.congr (alignedY.eq_last_iff he.1)

instance : LawfulBoundary Quad where
  isRootBoundary_of_inRoot {e n f d} he hf hn := by
    obtain ⟨validN, levelN, there⟩ := (faceNeighbor_eq_ok_iff he.1 rfl hf).mp hn
    have siteN : n.toSite = (layout.beyond e.toSite f).1 := congrArg Prod.fst there
    have inside := (inRoot_iff he.1).mp he
    have hf : f < 4 := hf
    refine (isRootBoundary_decides he.1 hf).congr ?_
    rw [inRoot_iff validN, siteN, Except.ok.inj levelN]
    interval_cases f <;> simp [layout, Pattern.beyond, Site.shift] <;> omega

end MeshCurve.Quad

/-! ## Simplices and prisms -/

namespace MeshCurve

open Element

instance : LawfulBoundary Triangle where
  isRootBoundary_of_inRoot := isRootBoundary_of_walled

instance : LawfulBoundary Tet where
  isRootBoundary_of_inRoot := isRootBoundary_of_walled

namespace Prism

variable {e n : Prism} {f d : Nat}

theorem inRoot_iff (he : e.Valid) : InRoot e ↔ InRoot e.tri ∧ InRoot e.line := by
  have test : Decides (isInsideRoot e) (InRoot e.tri ∧ InRoot e.line) :=
    (isInsideRoot_decides_inRoot he.tri).and fun _ => isInsideRoot_decides_inRoot he.line
  exact inRoot_iff_of_decides he test

theorem isRootBoundary_side (hf : f < 3) : e.isRootBoundary f = e.tri.isRootBoundary f := by
  interval_cases f <;> rfl

theorem isRootBoundary_end (hf : f < 2) : e.isRootBoundary (3 + f) = e.line.isRootBoundary f := by
  interval_cases f <;> rfl

instance : LawfulBoundary Prism where
  isRootBoundary_of_inRoot {e n f d} he hf hn := by
    obtain ⟨insideT, insideN⟩ := (inRoot_iff he.1).mp he
    have validN : n.Valid := (faceNeighbor_back he.1 hf hn).1
    have hf : f < 5 := hf
    have cross : e.faceNeighbor f = .ok (n, d) := hn
    rw [inRoot_iff validN]
    by_cases side : f < 3
    · rw [faceNeighbor_side side] at cross
      obtain ⟨⟨tri, _⟩, hT, cross⟩ := bind_eq_ok_iff.mp cross
      obtain ⟨_, made, cross⟩ := bind_eq_ok_iff.mp cross
      cases cross
      obtain ⟨_, _, rfl⟩ := ofFactors_eq_ok_iff.mp made
      have test : Decides (e.tri.isRootBoundary f) (¬ InRoot tri) :=
        isRootBoundary_of_inRoot insideT side hT
      rw [← isRootBoundary_side side] at test
      exact test.congr (not_congr (and_iff_left insideN).symm)
    · obtain ⟨g, rfl⟩ := Nat.exists_eq_add_of_le (Nat.le_of_not_lt side)
      have hg : g < 2 := by omega
      rw [faceNeighbor_end hg] at cross
      obtain ⟨⟨line, _⟩, hN, cross⟩ := bind_eq_ok_iff.mp cross
      obtain ⟨_, made, cross⟩ := bind_eq_ok_iff.mp cross
      cases cross
      obtain ⟨_, _, rfl⟩ := ofFactors_eq_ok_iff.mp made
      have test : Decides (e.line.isRootBoundary g) (¬ InRoot line) :=
        isRootBoundary_of_inRoot insideN hg hN
      rw [← isRootBoundary_end hg] at test
      exact test.congr (not_congr (and_iff_right insideT).symm)

end Prism

/-! ## Every shape -/

instance instLawfulBoundaryCarrier : (s : Shape) → LawfulBoundary s.Carrier
  | .line => inferInstanceAs (LawfulBoundary Line)
  | .quad => inferInstanceAs (LawfulBoundary Quad)
  | .triangle => inferInstanceAs (LawfulBoundary Triangle)
  | .tet => inferInstanceAs (LawfulBoundary Tet)
  | .prism => inferInstanceAs (LawfulBoundary Prism)

/-- Inside the root a face is on the boundary exactly if there is no neighbour inside.  The
vertices of such a face of a simplex lie on the plane of one root face, the one that is
found for it; the other faces lie on none of these planes. -/
theorem isRootBoundary_iff_no_neighbor (s : Shape) {e : s.Carrier} {f : Nat} (he : InRoot e)
    (hf : f < s.numFaces) :
    ∃ boundary neighbor, isRootBoundary e f = .ok boundary ∧
      faceNeighborInside e f = .ok neighbor ∧ (boundary = true ↔ neighbor = none) ∧
      (s = .triangle ∨ s = .tet →
        (boundary = true → ∃ r, OnOneRootFace e f r) ∧
        (boundary = false → ∀ r < s.numFaces, ¬ FaceOnPlane e f r)) := by
  rw [← numFaces_carrier] at hf ⊢
  obtain ⟨boundary, neighbor, test, cross, iff⟩ := exists_faceNeighborInside he hf
  refine ⟨boundary, neighbor, test, cross, iff, ?_⟩
  rintro (rfl | rfl)
  · exact onOneRootFace_of_walled (E := Triangle) he hf test
  · exact onOneRootFace_of_walled (E := Tet) he hf test

/-- The last child of the root, which touches three of its faces. -/
def farTet : Tet := ⟨0x100000, 0x100000, 0x100000, 0, 1⟩

theorem isRootBoundary_iff_no_neighbor_tet :
    InRoot farTet ∧ isRootBoundary farTet 2 = .ok true ∧ faceNeighborInside farTet 2 = .ok none ∧
      treeFace farTet 2 = .ok 2 ∧ FaceOnPlane farTet 2 2 ∧ ¬ FaceOnPlane farTet 2 1 ∧
      isRootBoundary farTet 3 = .ok false ∧ ¬ FaceOnPlane farTet 3 3 := by
  have inside : InRoot farTet := ⟨by decide, by rfl⟩
  have yes : isRootBoundary farTet 2 = .ok true := by rfl
  have no : isRootBoundary farTet 3 = .ok false := by rfl
  have tree : treeFace farTet 2 = .ok 2 := by rfl
  obtain ⟨outer, none', test, cross, iff, onPlane⟩ :=
    isRootBoundary_iff_no_neighbor .tet inside (show 2 < 4 by decide)
  obtain ⟨inner, _, test', _, _, offPlane⟩ :=
    isRootBoundary_iff_no_neighbor .tet inside (show 3 < 4 by decide)
  obtain rfl := Except.ok.inj (test.symm.trans yes)
  obtain rfl := Except.ok.inj (test'.symm.trans no)
  obtain rfl := iff.mp rfl
  obtain ⟨r, found, _, on⟩ := (onPlane (.inr rfl)).1 rfl
  obtain rfl : r = 2 := Except.ok.inj (found.symm.trans tree)
  refine ⟨inside, yes, cross, tree, (on 2 (by decide)).mpr rfl, ?_, no, ?_⟩
  · exact fun other => absurd ((on 1 (by decide)).mp other) (by decide)
  · exact (offPlane (.inr rfl)).2 rfl 3 (by decide)

end MeshCurve
