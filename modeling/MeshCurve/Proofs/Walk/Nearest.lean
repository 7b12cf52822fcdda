import MeshCurve.Proofs.Walk.Steps

/-!
# Nearest common ancestors

The common ancestors of two elements are nested, and the nearest of them is below all the
others.  The finest level on which the anchors agree is where two boxes part.  Two
simplices may part earlier, since their ancestors in one cube can still differ in type: they
are followed upwards from there until they agree, at the root of their tree at the latest.
-/

/-! ## Nearest -/

namespace MeshCurve.Element

section

variable {E : Type} [Element E] {a b c d n n' p q : E} {l m : Nat}

structure Nearest (n a b : E) : Prop where
  valid : Valid n
  left : Below n a
  right : Below n b
  below_of_common {c : E} : Valid c → Below c a → Below c b → Below c n

/-- The common ancestors of `a` and `b` are on levels up to `l`. -/
def PartBy (a b : E) (l : Nat) : Prop :=
  ∀ d m, Valid d → Below d a → Below d b → level d = .ok m → m ≤ l

theorem Below.eq_of_level (h : Below a b) (ha : level a = .ok l) (hb : level b = .ok l) :
    b = a := by
  obtain ⟨k, i, h⟩ := h
  have levels := Except.ok.inj (hb.symm.trans (h.level ha))
  obtain rfl : k = 0 := by omega
  exact (descends_zero_iff.mp h).2

theorem Nearest.symm (h : Nearest n a b) : Nearest n b a :=
  ⟨h.valid, h.right, h.left, fun hc left right => h.below_of_common hc right left⟩

theorem Nearest.of_below (ha : Valid a) (h : Below a b) : Nearest a a b :=
  ⟨ha, .refl a, h, fun _ below _ => below⟩

/-- Two elements of one level part before it. -/
theorem partBy_of_ne (hl : level a = .ok (l + 1)) (hl' : level b = .ok (l + 1)) (ne : a ≠ b) :
    PartBy a b l := by
  intro d m _ left right hm
  have hle := left.level_le hm hl
  by_contra hlt
  obtain rfl : m = l + 1 := by omega
  exact ne ((left.eq_of_level hm hl).trans (right.eq_of_level hm hl').symm)

variable [LawfulForest E]

theorem Below.of_level_le (ha : Valid a) (hb : Valid b) (h : Below a c) (h' : Below b c)
    (hl : level a = .ok l) (hm : level b = .ok m) (hle : l ≤ m) : Below a b := by
  rcases h.comparable ha hb h' with below | above
  · exact below
  · obtain rfl := Nat.le_antisymm hle (above.level_le hm hl)
    rw [above.eq_of_level hm hl]
    exact .refl b

theorem Nearest.unique (h : Nearest n a b) (h' : Nearest n' a b) : n = n' := by
  obtain ⟨l, _, hl⟩ := level_of_valid h.valid
  obtain ⟨m, _, hm⟩ := level_of_valid h'.valid
  have below := h.below_of_common h'.valid h'.left h'.right
  have above := h'.below_of_common h.valid h.left h.right
  obtain rfl := Nat.le_antisymm (above.level_le hl hm) (below.level_le hm hl)
  exact below.eq_of_level hm hl

/-- Where the levels of the common ancestors end, it is enough to look for the nearest one
between the ancestors of that level. -/
theorem Nearest.of_partBy (part : PartBy a b l) (hp : Valid p ∧ Below p a)
    (hq : Valid q ∧ Below q b) (levelP : level p = .ok l) (levelQ : level q = .ok l)
    (h : Nearest n p q) : Nearest n a b := by
  refine ⟨h.valid, h.left.trans hp.2, h.right.trans hq.2, ?_⟩
  intro c hc left right
  obtain ⟨m, _, hm⟩ := level_of_valid hc
  have hle := part c m hc left right hm
  exact h.below_of_common hc (left.of_level_le hc hp.1 hp.2 hm levelP hle)
    (right.of_level_le hc hq.1 hq.2 hm levelQ hle)

theorem PartBy.nearest (part : PartBy a b l) (hn : Valid n) (hl : level n = .ok l)
    (ha : Below n a) (hb : Below n b) : Nearest n a b :=
  .of_partBy part ⟨hn, ha⟩ ⟨hn, hb⟩ hl hl (.of_below hn (.refl n))

end

/-- What a shape has to prove about two elements of one tree. -/
class LawfulNca (E : Type) [Element E] : Prop extends LawfulWalk E where
  exists_nca {a b : E} : Kin a b → ∃ n, nca a b = .ok n ∧ Nearest n a b

export LawfulNca (exists_nca)

section

variable {E : Type} [Element E] {a b p q : E} {l : Nat}

section

variable [LawfulForest E]

theorem Kin.eq_of_level_zero (h : Kin a b) (ha : level a = .ok 0) (hb : level b = .ok 0) :
    a = b := by
  obtain ⟨r, hr, left, right⟩ := h
  obtain ⟨l, _, hl⟩ := level_of_valid hr
  obtain rfl := Nat.le_zero.mp (left.level_le hl ha)
  rw [left.eq_of_level hl ha, right.eq_of_level hl hb]

theorem Kin.lift (h : Kin a b) (hp : Valid p ∧ Below p a) (hq : Valid q ∧ Below q b) : Kin p q :=
  (Kin.of_below hp.1 hp.2).trans (h.trans (.of_above hq))

theorem exists_parent_above (he : Valid a) (hl : level a = .ok (l + 1)) :
    ∃ p, parent a = .ok p ∧ level p = .ok l ∧ Valid p ∧ Below p a := by
  obtain ⟨p, i, hi, up, _, hp, down⟩ := parent_of_valid he hl
  obtain ⟨m, hm, hl'⟩ := level_child down
  obtain rfl : l = m := Nat.succ_inj.mp (Except.ok.inj (hl.symm.trans hl'))
  exact ⟨p, up, hm, hp, 1, i, .single hi down⟩

end

section

variable [LawfulNavigation E]

theorem kin_of_tree (ha : Valid a) (hb : Valid b)
    (tree : ancestor a 0 = ancestor b 0) : Kin a b := by
  obtain ⟨l, _, hl⟩ := level_of_valid ha
  obtain ⟨m, _, hm⟩ := level_of_valid hb
  obtain ⟨r, i, up, hr, _, hi⟩ := exists_ancestor_eq ha hl (Nat.zero_le l)
  rw [tree] at up
  exact ⟨r, hr, ⟨_, _, hi⟩, (below_of_ancestor hb hm (Nat.zero_le m) up).2⟩

theorem below_of_isAncestor [DecidableEq E] (hb : Valid b)
    (h : isAncestor a b = .ok true) : Valid a ∧ Below a b := by
  obtain ⟨l, _, h'⟩ := bind_eq_ok_iff.mp h
  obtain ⟨m, hm, h'⟩ := bind_eq_ok_iff.mp h'
  split at h'
  · next hle =>
      obtain ⟨c, up, same⟩ := bind_eq_ok_iff.mp h'
      obtain rfl := of_decide_eq_true (Except.ok.inj same)
      exact below_of_ancestor hb hm hle up
  · cases h'

end

/-! ## Anchors -/

section

variable [Anchored E] [LawfulAnchored E] {k m : Nat}

/-- The digits that two elements of one tree have in common. -/
theorem le_sharedLevel_iff (kin : Kin a b) (ha : level a = .ok l) :
    k ≤ Coord.sharedLevel (finest E) (min l m) (anchor a) (anchor b) ↔
      (k ≤ l ∧ k ≤ m) ∧ (anchor a).map (Coord.clearBelow · (pos E k)) =
        (anchor b).map (Coord.clearBelow · (pos E k)) := by
  have fits : min l m ≤ finest E := by
    obtain ⟨_, hle, hl⟩ := level_of_valid kin.symm.valid
    cases ha.symm.trans hl
    exact (Nat.min_le_left l m).trans hle
  obtain ⟨r, hr, left, right⟩ := kin
  obtain ⟨_, _, hl⟩ := level_of_valid hr
  have tree := Coord.map_clearBelow_congr
    ((left.cut_anchor hr hl).trans (right.cut_anchor hr hl).symm) (Nat.sub_le (finest E) _)
  rw [Coord.le_sharedLevel_iff (finest_le E) fits tree, Nat.le_min]

theorem partBy_sharedLevel (kin : Kin a b) (ha : level a = .ok l) (hb : level b = .ok m) :
    PartBy a b (Coord.sharedLevel (finest E) (min l m) (anchor a) (anchor b)) := by
  intro d n hd left right hn
  exact (le_sharedLevel_iff kin ha).mpr ⟨⟨left.level_le hn ha, right.level_le hn hb⟩,
    (left.cut_anchor hd hn).trans (right.cut_anchor hd hn).symm⟩

/-- The ancestors on the finest level on which two elements of one tree lie in one cube. -/
theorem exists_above [LawfulNavigation E] (kin : Kin a b) (ha : level a = .ok l)
    (hb : level b = .ok m)
    (hk : k = Coord.sharedLevel (finest E) (min l m) (anchor a) (anchor b)) :
    ∃ p q, (ancestor a k = .ok p ∧ level p = .ok k ∧ Valid p ∧ Below p a) ∧
      (ancestor b k = .ok q ∧ level q = .ok k ∧ Valid q ∧ Below q b) ∧ anchor p = anchor q := by
  obtain ⟨⟨coarse, coarse'⟩, same⟩ := (le_sharedLevel_iff kin ha).mp hk.le
  obtain ⟨p, i, up, hp, levelP, hi⟩ := exists_ancestor_eq kin.symm.valid ha coarse
  obtain ⟨q, j, up', hq, levelQ, hj⟩ := exists_ancestor_eq kin.valid hb coarse'
  refine ⟨p, q, ⟨up, levelP, hp, _, i, hi⟩, ⟨up', levelQ, hq, _, j, hj⟩, ?_⟩
  rw [← hi.cut_anchor hp levelP, ← hj.cut_anchor hq levelQ, same]

end

end

end MeshCurve.Element

/-! ## Boxes -/

namespace MeshCurve.Box

open Element

instance {B : Type} [Element B] [Box B] [BoxWalk B] : LawfulNca B where
  exists_nca {a b} kin := by
    have levelA := LawfulBox.level_eq a
    have levelB := LawfulBox.level_eq b
    obtain ⟨p, q, ⟨up, levelP, hp, left⟩, ⟨_, levelQ, _, right⟩, place⟩ :=
      exists_above kin levelA levelB rfl
    obtain rfl : p = q := LawfulBox.ext place
      ((level_eq_ok_iff.mp levelP).trans (level_eq_ok_iff.mp levelQ).symm)
    have met := nca_eq kin.symm.valid b
    have cut := cutAt_of_below hp left
    rw [level_eq_ok_iff.mp levelP] at cut
    rw [cut] at met
    exact ⟨p, met, (partBy_sharedLevel kin levelA levelB).nearest hp levelP left right⟩

end MeshCurve.Box

/-! ## Simplices -/

namespace MeshCurve.Kuhn

open Element

variable {K : Type} [Kuhn K] {a b p q : K} {l : Nat}

theorem meet_self (l : Nat) (e : K) : meet l e e = .ok e := by
  cases l with
  | zero => rw [meet, if_pos rfl, pure_eq_ok]
  | succ l => rw [meet, if_pos rfl, pure_eq_ok]

theorem level_eq_ok_iff [DecidableEq K] [Element K] [KuhnElement K] :
    Element.level a = .ok l ↔ level a = l := by
  rw [KuhnElement.level_eq, Except.ok.injEq]

variable [DecidableEq K] [Element K] [KuhnElement K] [LawfulKuhn K]

/-- The two simplices meet at the latest where their tree starts. -/
theorem exists_meet (levelA : Element.level a = .ok l) (levelB : Element.level b = .ok l)
    (place : coords a = coords b) (kin : Kin a b) :
    ∃ n, meet l a b = .ok n ∧ Nearest n a b := by
  induction l generalizing a b with
  | zero =>
      obtain rfl := kin.eq_of_level_zero levelA levelB
      exact ⟨a, meet_self 0 a, .of_below kin.valid (.refl a)⟩
  | succ l ih =>
      by_cases same : type a = type b
      · have level := (level_eq_ok_iff.mp levelA).trans (level_eq_ok_iff.mp levelB).symm
        obtain rfl : a = b := LawfulKuhn.ext place same level
        exact ⟨a, meet_self (l + 1) a, .of_below kin.valid (.refl a)⟩
      · obtain ⟨p, up, levelP, hp⟩ := exists_parent_above kin.symm.valid levelA
        obtain ⟨q, up', levelQ, hq⟩ := exists_parent_above kin.valid levelB
        have above : coords p = coords q := (hp.2.cut_anchor hp.1 levelP).symm.trans
          ((congrArg (List.map _) place).trans (hq.2.cut_anchor hq.1 levelQ))
        obtain ⟨n, met, near⟩ := ih levelP levelQ above (kin.lift hp hq)
        have part := partBy_of_ne levelA levelB fun h => same (congrArg type h)
        rw [KuhnElement.parent_eq] at up up'
        refine ⟨n, ?_, .of_partBy part hp hq levelP levelQ near⟩
        rw [meet, if_neg same, up, ok_bind, up', ok_bind, met]

theorem exists_nca (kin : Kin a b) : ∃ n, nca a b = .ok n ∧ Nearest n a b := by
  have levelA := KuhnElement.level_eq a
  have levelB := KuhnElement.level_eq b
  obtain ⟨p, q, ⟨up, levelP, left⟩, ⟨up', levelQ, right⟩, place⟩ :=
    exists_above kin levelA levelB rfl
  obtain ⟨n, met, near⟩ := exists_meet levelP levelQ place (kin.lift left right)
  rw [KuhnElement.ancestor_eq, finest_eq] at up up'
  rw [finest_eq] at met
  refine ⟨n, bind_eq_ok_iff.mpr ⟨p, up, bind_eq_ok_iff.mpr ⟨q, up', met⟩⟩, ?_⟩
  exact .of_partBy (partBy_sharedLevel kin levelA levelB) left right levelP levelQ near

instance [Rooted K] [KuhnRoot K] [KuhnWalk K] : LawfulNca K where
  exists_nca kin := by
    rw [KuhnWalk.nca_eq]
    exact exists_nca kin

end MeshCurve.Kuhn

/-! ## Prisms -/

namespace MeshCurve.Prism

open Element

variable {a b : Prism}

theorem factors_of_below {p d : Prism} (h : Below p d) :
    Below p.tri d.tri ∧ Below p.line d.line := by
  obtain ⟨k, _, h⟩ := h
  obtain ⟨t, m, _, ht, hm⟩ := factors_of_descends h
  exact ⟨⟨k, t, ht⟩, ⟨k, m, hm⟩⟩

theorem factors_of_kin (h : Kin a b) : Kin a.tri b.tri ∧ Kin a.line b.line := by
  obtain ⟨r, hr, left, right⟩ := h
  obtain ⟨leftT, leftN⟩ := factors_of_below left
  obtain ⟨rightT, rightN⟩ := factors_of_below right
  exact ⟨⟨r.tri, hr.tri, leftT, rightT⟩, ⟨r.line, hr.line, leftN, rightN⟩⟩

/-- A common ancestor is above both factors' nearest ones, and the finer of these has to be
lifted to the level of the coarser. -/
theorem partBy_of_factors {tri : Triangle} {line : Line} (hT : Nearest tri a.tri b.tri)
    (hN : Nearest line a.line b.line) : PartBy a b (min tri.level line.level) := by
  intro d m hd left right hm
  cases (Valid.level_eq hd).symm.trans hm
  obtain ⟨leftT, leftN⟩ := factors_of_below left
  obtain ⟨rightT, rightN⟩ := factors_of_below right
  have coarseT := (hT.below_of_common hd.tri leftT rightT).level_le rfl rfl
  have coarseN := (hN.below_of_common hd.line leftN rightN).level_le rfl rfl
  exact Nat.le_min.mpr ⟨coarseT, hd.1 ▸ coarseN⟩

theorem exists_nca (ha : a.Valid) (hb : b.Valid) (kin : Kin a b) :
    ∃ n, a.nca b = .ok n ∧ Nearest n a b := by
  obtain ⟨kinT, kinN⟩ := factors_of_kin kin
  obtain ⟨tri, hT, nearT⟩ := Element.exists_nca kinT
  obtain ⟨line, hN, nearN⟩ := Element.exists_nca kinN
  obtain ⟨tri', _, upT, validT, levelT, downT⟩ :=
    exists_ancestor_eq nearT.valid rfl (Nat.min_le_left tri.level line.level)
  obtain ⟨line', _, upN, validN, levelN, downN⟩ :=
    exists_ancestor_eq nearN.valid rfl (Nat.min_le_right tri.level line.level)
  have levels : tri'.level = line'.level := Except.ok.inj (levelT.trans levelN.symm)
  have aboveT : Below tri' tri := ⟨_, _, downT⟩
  have aboveN : Below line' line := ⟨_, _, downN⟩
  obtain ⟨valid, left⟩ := below_of_factors (p := ⟨tri', line'⟩) ha levels validT validN
    (aboveT.trans nearT.left) (aboveN.trans nearN.left)
  obtain ⟨_, right⟩ := below_of_factors (p := ⟨tri', line'⟩) hb levels validT validN
    (aboveT.trans nearT.right) (aboveN.trans nearN.right)
  have whole : Element.level (⟨tri', line'⟩ : Prism) = .ok (min tri.level line.level) :=
    (Valid.level_eq valid).trans levelT
  refine ⟨⟨tri', line'⟩, ?_, (partBy_of_factors nearT nearN).nearest valid whole left right⟩
  exact bind_eq_ok_iff.mpr
    ⟨tri, hT, bind_eq_ok_iff.mpr ⟨line, hN, both_eq upT upN levels valid.2.1⟩⟩

instance : LawfulNca Prism where
  exists_nca kin := exists_nca kin.symm.valid kin.valid kin

end MeshCurve.Prism

/-! ## Every shape -/

namespace MeshCurve

open Element

instance instLawfulNcaCarrier : (s : Shape) → LawfulNca s.Carrier
  | .line => inferInstanceAs (LawfulNca Line)
  | .quad => inferInstanceAs (LawfulNca Quad)
  | .triangle => inferInstanceAs (LawfulNca Triangle)
  | .tet => inferInstanceAs (LawfulNca Tet)
  | .prism => inferInstanceAs (LawfulNca Prism)

/-- Two elements of one tree, wherever it stands, have a nearest common ancestor: it is
above both, and whatever is above both is above it.  The order of the two does not matter,
and if one of them is above the other, it is the nearest itself. -/
theorem nca_is_nearest (s : Shape) {a b : s.Carrier} (ha : Valid a) (hb : Valid b)
    (tree : ancestor a 0 = ancestor b 0) :
    ∃ n, nca a b = .ok n ∧ isAncestor n a = .ok true ∧ isAncestor n b = .ok true ∧
      (∀ c, isAncestor c a = .ok true → isAncestor c b = .ok true →
        isAncestor c n = .ok true) ∧
      nca b a = .ok n ∧ nca a a = .ok a ∧ (isAncestor a b = .ok true → n = a) := by
  have kin := kin_of_tree ha hb tree
  obtain ⟨n, hn, near⟩ := exists_nca kin
  obtain ⟨n', hn', near'⟩ := exists_nca kin.symm
  obtain ⟨own, self, nearest⟩ := exists_nca (Kin.refl ha)
  refine ⟨n, hn, (isAncestor_of_valid near.valid ha).eq_true near.left,
    (isAncestor_of_valid near.valid hb).eq_true near.right, ?_, ?_, ?_, ?_⟩
  · intro c left right
    obtain ⟨hc, belowA⟩ := below_of_isAncestor ha left
    obtain ⟨_, belowB⟩ := below_of_isAncestor hb right
    exact (isAncestor_of_valid hc near.valid).eq_true (near.below_of_common hc belowA belowB)
  · rw [hn', near'.unique near.symm]
  · rw [self, nearest.unique (.of_below ha (.refl a))]
  · intro above
    exact near.unique (.of_below ha (below_of_isAncestor hb above).2)

/-- A root of another type, in the cube next to that of the root. -/
def nextRoot : Tet := ⟨0x200000, 0, 0, 3, 0⟩

/-- Tets of one cube below `nextRoot`; those of type 0 and 3 part at once. -/
def twin (type : Nat) : Tet := ⟨0x200000, 0x180000, 0x100000, type, 2⟩

theorem nca_is_nearest_tet :
    Valid (twin 0) ∧ Valid (twin 3) ∧ ancestor (twin 0) 0 = ancestor (twin 3) 0 ∧
      nca (twin 0) (twin 3) = .ok nextRoot ∧ nca (twin 3) (twin 0) = .ok nextRoot ∧
        isAncestor nextRoot (twin 3) = .ok true ∧
          ∀ c, isAncestor c (twin 0) = .ok true → isAncestor c (twin 3) = .ok true →
            isAncestor c nextRoot = .ok true := by
  have valid : Valid (twin 0) := by decide
  have valid' : Valid (twin 3) := by decide
  have tree : ancestor (twin 0) 0 = ancestor (twin 3) 0 := by rfl
  have here : nca (twin 0) (twin 3) = .ok nextRoot := by rfl
  obtain ⟨n, hn, _, right, common, swapped, _⟩ := nca_is_nearest .tet valid valid' tree
  cases here.symm.trans hn
  exact ⟨valid, valid', tree, here, swapped, right, common⟩

end MeshCurve
