import MeshCurve.Proofs.Cell.PrismCurve
import MeshCurve.Proofs.Grid.Prism
import MeshCurve.Proofs.Walk.Boxes
import MeshCurve.Proofs.Walk.Simplices

/-!
# Walks over prisms

A call on a prism is made on both factors, and where both have a value, the factors of
the result have to be of one level.  What is above the factors is then above the prism.
-/

namespace MeshCurve.Radix

theorem weave_last {p q : Nat} (hp : 0 < p) (hq : 0 < q) (n : Nat) :
    weave p q n (p ^ n - 1) (q ^ n - 1) = (p * q) ^ n - 1 := by
  induction n with
  | zero => rfl
  | succ n ih =>
      have step := weave_append (Nat.sub_lt hp Nat.one_pos) (Nat.sub_lt hq Nat.one_pos) n
        (p ^ n - 1) (q ^ n - 1)
      have digit : p - 1 + p * (q - 1) = p * q - 1 := by
        obtain ⟨q, rfl⟩ := Nat.exists_eq_add_one.mpr hq
        rw [Nat.add_sub_cancel, Nat.mul_succ]
        omega
      rwa [Element.last_append hp, Element.last_append hq, ih, digit,
        Element.last_append (Nat.mul_pos hp hq)] at step

end MeshCurve.Radix

namespace MeshCurve.Prism

open Element

variable {a b c d e p : Prism} {i j k l m t target : Nat}

theorem below_of_factors (he : e.Valid) (levels : p.tri.level = p.line.level)
    (hp : Element.Valid p.tri) (hn : Element.Valid p.line) (ht : Below p.tri e.tri)
    (hm : Below p.line e.line) : Element.Valid p ∧ Below p e := by
  obtain ⟨k, t, ht⟩ := ht
  obtain ⟨k', m, hm⟩ := hm
  have levelT : e.tri.level = p.tri.level + k := Except.ok.inj (ht.level rfl)
  have levelN : e.line.level = p.line.level + k' := Except.ok.inj (hm.level rfl)
  have same := he.1
  have fits := he.2.1
  obtain rfl : k' = k := by omega
  exact ⟨⟨levels, by omega, hp, hn⟩, _, _, descends_of_factors levels (by omega) ht hm⟩

theorem level_of_parent (he : e.Valid) (h : e.parent = .ok p) :
    ∃ l, Element.level e = .ok (l + 1) := by
  obtain ⟨tri, ht, _⟩ := bind_eq_ok_iff.mp h
  obtain ⟨l, hl⟩ := Element.level_of_parent (Valid.tri he) ht
  exact ⟨l, (Valid.level_eq he).trans hl⟩

theorem le_of_ancestor (he : e.Valid) (h : e.ancestor target = .ok a) : target ≤ e.tri.level := by
  obtain ⟨tri, ht, _⟩ := bind_eq_ok_iff.mp h
  exact Element.le_of_ancestor (Valid.tri he) rfl ht

theorem bounds_of_firstDescendant (he : e.Valid) (h : e.firstDescendant target = .ok d) :
    e.tri.level ≤ target ∧ target ≤ depth := by
  obtain ⟨tri, ht, h⟩ := bind_eq_ok_iff.mp h
  obtain ⟨line, _, h⟩ := bind_eq_ok_iff.mp h
  obtain ⟨_, fits, _⟩ := ofFactors_eq_ok_iff.mp h
  obtain ⟨hle, fine⟩ := Element.bounds_of_firstDescendant (Valid.tri he) rfl ht
  obtain ⟨d', hd, first⟩ := firstDescendant_of_valid (Valid.tri he) rfl hle fine
  cases hd.symm.trans ht
  have own : tri.level = e.tri.level + (target - e.tri.level) := Except.ok.inj (first.level rfl)
  exact ⟨hle, by omega⟩

theorem descends_of_lastDescendant (he : e.Valid) (h : e.lastDescendant target = .ok d) :
    e.tri.level ≤ target ∧
      Descends e (target - e.tri.level) (8 ^ (target - e.tri.level) - 1) d := by
  obtain ⟨tri, ht, h⟩ := bind_eq_ok_iff.mp h
  obtain ⟨line, hn, h⟩ := bind_eq_ok_iff.mp h
  obtain ⟨_, fits, rfl⟩ := ofFactors_eq_ok_iff.mp h
  obtain ⟨hle, lastT⟩ := Element.descends_of_lastDescendant (Valid.tri he) rfl ht
  obtain ⟨_, lastN⟩ := Element.descends_of_lastDescendant (Valid.line he) rfl hn
  have own : tri.level = e.tri.level + (target - e.tri.level) := Except.ok.inj (lastT.level rfl)
  rw [← he.1] at lastN
  have last := descends_of_factors he.1 (by omega) lastT lastN
  have number : 4 * 2 = 8 := rfl
  have whole := Radix.weave_last (show 0 < 4 by decide) (show 0 < 2 by decide)
    (target - e.tri.level)
  rw [number] at whole
  exact ⟨hle, whole ▸ last⟩

theorem below_of_nca (ha : a.Valid) (h : a.nca b = .ok c) : Element.Valid c ∧ Below c a := by
  obtain ⟨tri, ht, h⟩ := bind_eq_ok_iff.mp h
  obtain ⟨line, hn, h⟩ := bind_eq_ok_iff.mp h
  obtain ⟨tri', ht', h⟩ := bind_eq_ok_iff.mp h
  obtain ⟨line', hn', h⟩ := bind_eq_ok_iff.mp h
  obtain ⟨levels, _, rfl⟩ := ofFactors_eq_ok_iff.mp h
  obtain ⟨validT, aboveT⟩ := nca_of_valid (Valid.tri ha) ht
  obtain ⟨validN, aboveN⟩ := nca_of_valid (Valid.line ha) hn
  obtain ⟨validT', aboveT'⟩ := below_of_ancestor validT rfl (Nat.min_le_left _ _) ht'
  obtain ⟨validN', aboveN'⟩ := below_of_ancestor validN rfl (Nat.min_le_right _ _) hn'
  exact below_of_factors ha levels validT' validN' (aboveT'.trans aboveT) (aboveN'.trans aboveN)

/-! ## Successors -/

theorem kin_of_climbLast {s u : Prism} (hs : Element.Valid s) (h : climbLast l s = .ok u) :
    Kin s u := by
  induction l generalizing s with
  | zero => cases h
  | succ l ih =>
      obtain ⟨i, _, h⟩ := bind_eq_ok_iff.mp h
      split at h
      · obtain ⟨_, _, h⟩ := bind_eq_ok_iff.mp h
        obtain ⟨_, h⟩ := of_require_bind h
        obtain ⟨p, up, h⟩ := bind_eq_ok_iff.mp h
        obtain ⟨m, hm⟩ := level_of_parent hs up
        obtain ⟨hp, above⟩ := below_of_parent hs hm up
        exact (Kin.of_above ⟨hp, above⟩).trans (ih hp h)
      · cases h
        exact .refl hs

theorem kin_of_successor (he : Element.Valid e) (h : e.successor target = .ok d) : Kin e d := by
  obtain ⟨⟨h1, ht⟩, _⟩ := of_require_bind h
  obtain ⟨s, kin, _, up, down⟩ := exists_kin_on_level he (Valid.level_eq he) ht
  rw [successor_eq (Valid.level_eq he) h1 ht up down] at h
  obtain ⟨u, climb, h⟩ := bind_eq_ok_iff.mp h
  obtain ⟨p, parent, h⟩ := bind_eq_ok_iff.mp h
  obtain ⟨i, _, h⟩ := bind_eq_ok_iff.mp h
  obtain ⟨c, next, first⟩ := bind_eq_ok_iff.mp h
  have turn := kin.trans (kin_of_climbLast kin.valid climb)
  obtain ⟨m, hm⟩ := level_of_parent turn.valid parent
  have above := turn.trans (.of_above (below_of_parent turn.valid hm parent))
  have beside := above.trans (kin_of_child above.valid next)
  exact beside.trans (kin_of_firstDescendant beside.valid (Valid.level_eq beside.valid)
    (bounds_of_firstDescendant beside.valid first) first)

/-! ## Faces -/

theorem child_of_storey {tris : List Triangle} {line : Line} {prisms : List Prism} {f : Nat}
    (he : e.Valid) (ht : e.tri.childrenAtFace f = .ok tris) (hn : e.line.child j = .ok line)
    (h : tris.mapM (ofFactors · line) = .ok prisms) (hc : c ∈ prisms) :
    ∃ i, e.child i = .ok c := by
  obtain ⟨tri, member, made⟩ := exists_of_mem_of_mapM_eq_ok h hc
  obtain ⟨i, hi⟩ := Element.child_of_childrenAtFace (Valid.tri he) ht member
  exact ⟨i + 4 * j, (ofFactors_eq_child he hi hn).symm.trans made⟩

theorem child_of_childrenAtFace {f : Nat} {cs : List Prism} (he : e.Valid)
    (h : e.childrenAtFace f = .ok cs) (hc : c ∈ cs) : ∃ i, e.child i = .ok c := by
  obtain ⟨hf, ends⟩ := of_require_bind h
  by_cases side : f < 3
  · rw [childrenAtFace_side side] at h
    obtain ⟨tris, ht, h⟩ := bind_eq_ok_iff.mp h
    obtain ⟨lower, hl, h⟩ := bind_eq_ok_iff.mp h
    obtain ⟨below, hb, h⟩ := bind_eq_ok_iff.mp h
    obtain ⟨upper, hu, h⟩ := bind_eq_ok_iff.mp h
    obtain ⟨above, ha, h⟩ := bind_eq_ok_iff.mp h
    cases h
    rcases List.mem_append.mp hc with hc | hc
    · exact child_of_storey he ht hl hb hc
    · exact child_of_storey he ht hu ha hc
  · obtain rfl | rfl : f = 3 ∨ f = 4 := by omega
    all_goals
      obtain ⟨i, _, hi⟩ := exists_of_mem_of_mapM_eq_ok ends hc
      exact ⟨i, hi⟩

instance : LawfulWalk Prism where
  level_of_parent := level_of_parent
  le_of_ancestor he hl h := by
    cases (Valid.level_eq he).symm.trans hl
    exact le_of_ancestor he h
  bounds_of_firstDescendant he hl h := by
    cases (Valid.level_eq he).symm.trans hl
    exact bounds_of_firstDescendant he h
  descends_of_lastDescendant he hl h := by
    cases (Valid.level_eq he).symm.trans hl
    exact descends_of_lastDescendant he h
  successor_of_valid he h := .inl (kin_of_successor he h)
  nca_of_valid := below_of_nca
  child_of_childrenAtFace := child_of_childrenAtFace
  lt_of_faceNeighbor h := (of_require_bind h).1

end MeshCurve.Prism
