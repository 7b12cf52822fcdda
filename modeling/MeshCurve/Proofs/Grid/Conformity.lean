import MeshCurve.Proofs.Grid.Corners
import MeshCurve.Proofs.Grid.Prism
import MeshCurve.Proofs.Shapes

/-!
# Conforming meshes

The elements of a shape are glued face to face, and refining two neighbours leaves no
face of a child with nothing or with two children on its other side.
-/

namespace MeshCurve

open Element

instance instGridCarrier : (s : Shape) → Grid s.Carrier
  | .line => inferInstanceAs (Grid Line)
  | .quad => inferInstanceAs (Grid Quad)
  | .triangle => inferInstanceAs (Grid Triangle)
  | .tet => inferInstanceAs (Grid Tet)
  | .prism => inferInstanceAs (Grid Prism)

instance instLawfulGridCarrier : (s : Shape) → LawfulGrid s.Carrier
  | .line => inferInstanceAs (LawfulGrid Line)
  | .quad => inferInstanceAs (LawfulGrid Quad)
  | .triangle => inferInstanceAs (LawfulGrid Triangle)
  | .tet => inferInstanceAs (LawfulGrid Tet)
  | .prism => inferInstanceAs (LawfulGrid Prism)

theorem numFaces_carrier (s : Shape) : (shape s.Carrier).numFaces = s.numFaces := by
  rw [shape_carrier]

/-! ## Neighbours -/

/-- Wherever there is room for a neighbour, it is another element of the level, and the
way back across its face leads to the start.  Simplices share the vertices of the face
and no others. -/
theorem faceNeighbor_involutive (s : Shape) {e : s.Carrier} {f : Nat} (he : Valid e)
    (hf : f < s.numFaces) (room : faceNeighbor e f ≠ .error .range) :
    ∃ n d, faceNeighbor e f = .ok (n, d) ∧ Valid n ∧ level n = level e ∧ n ≠ e ∧
      d < s.numFaces ∧ faceNeighbor n d = .ok (e, f) ∧
      (s = .triangle ∨ s = .tet → facePoints e f = facePoints n d ∧
        ∀ p, vertexCoords e f = .ok p → ∀ v < s.numVertices, vertexCoords n v ≠ .ok p) := by
  rw [← numFaces_carrier] at hf ⊢
  obtain ⟨n, d, hn⟩ := exists_faceNeighbor_of_ne he hf room
  obtain ⟨validN, levels, distinct, hd, back⟩ := faceNeighbor_back he hf hn
  refine ⟨n, d, hn, validN, levels, distinct, hd, back, ?_⟩
  rintro (rfl | rfl)
  · exact ⟨facePoints_eq (E := Triangle) he hf hn, vertexCoords_ne (E := Triangle) he hf hn⟩
  · exact ⟨facePoints_eq (E := Tet) he hf hn, vertexCoords_ne (E := Tet) he hf hn⟩

/-- A tet to the left of the root's cube, and the one behind its face on the cube. -/
def leftTet : Tet := ⟨-0x100000, 0, 0, 0, 1⟩

def rightTet : Tet := ⟨0, 0, 0, 4, 1⟩

theorem faceNeighbor_involutive_tet :
    Valid leftTet ∧ faceNeighbor leftTet 0 ≠ .error .range ∧
      faceNeighbor leftTet 0 = .ok (rightTet, 3) ∧ faceNeighbor rightTet 3 = .ok (leftTet, 0) ∧
      facePoints leftTet 0 = facePoints rightTet 3 := by
  have valid : Valid leftTet := by decide
  have across : faceNeighbor leftTet 0 = .ok (rightTet, 3) := by rfl
  have room : faceNeighbor leftTet 0 ≠ .error .range := by
    rw [across]
    simp
  obtain ⟨n, d, hn, _, _, _, _, back, shared⟩ :=
    faceNeighbor_involutive .tet valid (show 0 < 4 by decide) room
  cases across.symm.trans hn
  exact ⟨valid, room, across, back, (shared (.inr rfl)).1⟩

/-! ## Refinement -/

theorem refinement_conforms (s : Shape) {e : s.Carrier} {l : Nat} (he : Valid e)
    (hl : level e = .ok l) (finer : l < s.maxLevel) (cube : InCube e) :
    ∃ cs, children e = .ok cs ∧
      (∀ c ∈ cs, ∀ g < s.numFaces, ∃ m h, faceNeighbor c g = .ok (m, h) ∧
        Xor (m ∈ cs ∧ m ≠ c) (∃! fk : Nat × Nat, OnFace e fk.1 fk.2 c g) ∧
        ∀ f k, OnFace e f k c g → ∃ n d, faceNeighbor e f = .ok (n, d) ∧
          parent m = .ok n ∧ ∃ k', OnFace n d k' m h) ∧
      ∀ f < s.numFaces, ∃ ds numbers, childrenAtFace e f = .ok ds ∧
        numFaceChildren e f = .ok ds.length ∧ ds.mapM childId = .ok numbers ∧
        numbers.Pairwise (· < ·) ∧ ∀ c ∈ ds, c ∈ cs := by
  rw [← finest_carrier] at finer
  rw [← numFaces_carrier]
  obtain ⟨cs, hcs⟩ := exists_children he hl finer
  refine ⟨cs, hcs, ?_, ?_⟩
  · intro c hc g hg
    obtain ⟨i, _, hi⟩ := (mem_children_iff hcs).mp hc
    have validC := (of_child he hi).1
    obtain ⟨m, h, hm⟩ := exists_faceNeighbor validC (inCube_child he cube hi) hg
    have distinct := (faceNeighbor_back validC hg hm).2.2.1
    have inner := neighbor_mem_children_iff he hcs hi hg hm
    refine ⟨m, h, hm, ?_, ?_⟩
    · by_cases outer : ∃ f k, OnFace e f k c g
      · obtain ⟨f, k, on⟩ := outer
        exact .inr ⟨existsUnique_onFace he hi on, fun inside => inner.mp inside.1 ⟨f, k, on⟩⟩
      · exact .inl ⟨⟨inner.mpr outer, distinct⟩, fun ⟨fk, on, _⟩ => outer ⟨fk.1, fk.2, on⟩⟩
    · intro f k on
      obtain ⟨n, d, hn⟩ := exists_faceNeighbor he cube on.1
      exact ⟨n, d, hn, matched_of_onFace he hi hg hm hn on⟩
  · intro f hf
    obtain ⟨ds, numbers, hds, count, ids, sorted, made⟩ := childrenAtFace_sorted he hl finer hf
    refine ⟨ds, numbers, hds, count, ids, sorted, ?_⟩
    intro c hc
    obtain ⟨i, hi⟩ := made c hc
    exact (mem_children_iff hcs).mpr ⟨i, (bounds_of_child hi hl).2, hi⟩

theorem refinement_conforms_tet :
    Valid rightTet ∧ level rightTet = .ok 1 ∧ InCube rightTet ∧
      ∃ c m h n d, child rightTet 0 = .ok c ∧ OnFace rightTet 3 0 c 3 ∧
        faceNeighbor c 3 = .ok (m, h) ∧ faceNeighbor rightTet 3 = .ok (n, d) ∧
        parent m = .ok n ∧ ∃ k', OnFace n d k' m h := by
  have valid : Valid rightTet := by decide
  have cube : InCube rightTet := by decide
  obtain ⟨cs, hcs, faces, _⟩ :=
    refinement_conforms .tet valid (show level rightTet = .ok 1 from rfl) (by decide) cube
  obtain ⟨c, at', hc⟩ := getElem?_children hcs (show 0 < 8 by decide)
  have first : child rightTet 0 = .ok ⟨0, 0, 0, 4, 2⟩ := by rfl
  cases first.symm.trans hc
  have on : OnFace rightTet 3 0 ⟨0, 0, 0, 4, 2⟩ 3 := ⟨by decide, ⟨_, rfl, rfl⟩, rfl⟩
  obtain ⟨m, h, hm, _, meet⟩ := faces _ (List.mem_of_getElem? at') 3 (by decide)
  obtain ⟨n, d, hn, up, part⟩ := meet 3 0 on
  exact ⟨valid, rfl, cube, _, m, h, n, d, hc, on, hm, hn, up, part⟩

end MeshCurve
