import MeshCurve.Proofs.Cell.Anchor
import MeshCurve.Proofs.Grid.Cells

/-!
# Grids of anchors

Where a shape has an anchor, its cells start there: axis by axis, the corner of a cell is its
anchor in units of the edges of its level.  A face leads to a corner that is at most one cell
away on each axis, so that from the cube of the root every face can be crossed, and no
neighbour is far from it.
-/

namespace MeshCurve

/-! ## Axes -/

/-- Corners with one coordinate for each axis. -/
class Axial (V : Type) [AddCommGroup V] where
  entries : V → List Int
  exists_of_mem_entries_add {a b : V} {p : Int} : p ∈ entries (a + b) →
    ∃ x ∈ entries a, ∃ y ∈ entries b, p = x + y

export Axial (entries exists_of_mem_entries_add)

instance : Axial Int where
  entries c := [c]
  exists_of_mem_entries_add {a b _} h :=
    ⟨a, List.mem_singleton_self a, b, List.mem_singleton_self b, List.mem_singleton.mp h⟩

instance {V : Type} [AddCommGroup V] [Axial V] : Axial (Int × V) where
  entries c := c.1 :: entries c.2
  exists_of_mem_entries_add {a b p} h := by
    rcases List.mem_cons.mp h with rfl | h
    · exact ⟨_, List.mem_cons_self, _, List.mem_cons_self, rfl⟩
    · obtain ⟨x, hx, y, hy, rfl⟩ := exists_of_mem_entries_add h
      exact ⟨x, List.mem_cons_of_mem _ hx, y, List.mem_cons_of_mem _ hy, rfl⟩

/-- No coordinate is longer than an edge. -/
def Short {V : Type} [AddCommGroup V] [Axial V] (c : V) : Prop := ∀ s ∈ entries c, -1 ≤ s ∧ s ≤ 1

instance {V : Type} [AddCommGroup V] [Axial V] (c : V) : Decidable (Short c) :=
  inferInstanceAs (Decidable (∀ s ∈ entries c, _))

/-! ## Anchored grids -/

namespace Element

/-- What a shape has to prove about where its cells start. -/
class AnchoredGrid (E : Type) [Element E] [Anchored E] [Grid E] [Axial (Corner E)] : Prop
    extends LawfulAnchored E where
  axes_eq (e : E) : axes e = (anchor e).map (·, finest E)
  entries_site {e : E} {l : Nat} : level e = .ok l →
    entries (site e).corner = (anchor e).map (· / 2 ^ pos E l)
  across_short : ∀ t < (shape E).numTypes, ∀ f < (shape E).numFaces,
    Short ((pattern E).across t f).1.corner
  exists_ofSite {l : Nat} {q : Site (Corner E)} :
    (∀ p ∈ entries q.corner, ∃ c, Coord.ofCell p (pos E l) = .ok c) →
      ∃ e : E, ofSite l q = .ok e

export AnchoredGrid (axes_eq entries_site across_short exists_ofSite)

variable {E : Type} [Element E] [Anchored E] [Grid E] [Axial (Corner E)] [AnchoredGrid E]
  {a : Corner E} {c e n : E} {d f i l : Nat}

theorem inCube_iff : InCube e ↔ ∀ c ∈ anchor e, 0 ≤ c ∧ c < 2 ^ finest E := by
  rw [InCube, axes_eq, List.forall_mem_map]

theorem inCube_child_iff (he : Valid e) (hc : child e i = .ok c) : InCube c ↔ InCube e := by
  rw [inCube_iff, inCube_iff, within_child_iff he hc]

/-- On each axis a corner next to that of `e` is at most one cell away. -/
theorem exists_of_mem_entries_corner_add {p : Int} (hl : level e = .ok l) (short : Short a)
    (hp : p ∈ entries ((site e).corner + a)) :
    ∃ x ∈ anchor e, ∃ s : Int, (-1 ≤ s ∧ s ≤ 1) ∧ p = x / 2 ^ pos E l + s := by
  obtain ⟨y, hy, s, hs, rfl⟩ := exists_of_mem_entries_add hp
  rw [entries_site hl] at hy
  obtain ⟨x, hx, rfl⟩ := List.mem_map.mp hy
  exact ⟨x, hx, s, short s hs, rfl⟩

theorem exists_ofSite_of_inCube (he : Valid e) (hl : level e = .ok l) (cube : InCube e)
    (ht : (site e).type < (shape E).numTypes) (hf : f < (shape E).numFaces) :
    ∃ n, ofSite (E := E) l ((pattern E).beyond (site e) f).1 = .ok n := by
  refine exists_ofSite fun p hp => ?_
  obtain ⟨x, hx, s, step, rfl⟩ :=
    exists_of_mem_entries_corner_add hl (across_short _ ht f hf) hp
  exact (aligned_of_valid he hl x hx).exists_ofCell_add (Nat.sub_le _ _) (finest_le E)
    (inCube_iff.mp cube x hx) step

theorem near_of_inCube (cube : InCube e) : ∀ c ∈ anchor e, Coord.Near c (finest E) := by
  intro c hc
  obtain ⟨lower, upper⟩ := inCube_iff.mp cube c hc
  exact .of_cube ⟨lower, upper.le⟩

theorem near_of_faceNeighbor [LawfulGrid E] (he : Valid e) (cube : InCube e)
    (hf : f < (shape E).numFaces) (hn : faceNeighbor e f = .ok (n, d)) :
    ∀ c ∈ anchor n, Coord.Near c (finest E) := by
  obtain ⟨l, _, hl⟩ := level_of_valid he
  obtain ⟨validN, levelN, there⟩ := (faceNeighbor_eq_ok_iff he hl hf).mp hn
  have siteN : site n = (site e).shift ((pattern E).across (site e).type f).1 :=
    congrArg Prod.fst there
  intro c hc
  have cell : c / 2 ^ pos E l ∈ entries (site n).corner := by
    rw [entries_site levelN]
    exact List.mem_map_of_mem hc
  rw [siteN] at cell
  obtain ⟨x, hx, s, step, place⟩ :=
    exists_of_mem_entries_corner_add hl (across_short _ (type_lt he) f hf) cell
  rw [(aligned_of_valid validN levelN c hc).eq_mul, place]
  exact (aligned_of_valid he hl x hx).near (Nat.sub_le _ _) (inCube_iff.mp cube x hx) step

end Element

end MeshCurve
