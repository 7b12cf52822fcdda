import MeshCurve.Cell.Prism
import MeshCurve.Proofs.Cell.Line
import MeshCurve.Proofs.Cell.Triangle
import MeshCurve.Proofs.Digit.Radix

/-!
# The tree of prisms

A descent of prisms is a pair of descents of the factors, and its number interleaves
theirs.  A family is a family of triangles in both planes and one of lines in every
column.
-/

namespace MeshCurve.Prism

open Element
open Radix (weave)

variable {e p : Prism} {l i target : Nat}

/-! ## Both factors at once -/

theorem ofFactors_eq {tri : Triangle} {line : Line} (h : tri.level = line.level)
    (hl : tri.level ≤ depth) : ofFactors tri line = .ok ⟨tri, line⟩ :=
  ofFactors_eq_ok_iff.mpr ⟨h, hl, rfl⟩

theorem both_eq {x : Except Fault Triangle} {y : Except Fault Line} {tri : Triangle} {line : Line}
    (hx : x = .ok tri) (hy : y = .ok line) (h : tri.level = line.level)
    (hl : tri.level ≤ depth) :
    (do let tri ← x; let line ← y; ofFactors tri line) = .ok ⟨tri, line⟩ := by
  rw [hx, ok_bind, hy, ok_bind, ofFactors_eq h hl]

theorem level_tri {t t' : Triangle} (h : Element.child t i = .ok t') : t'.level = t.level + 1 :=
  Triangle.level_child h

theorem level_line {a b : Line} (h : Element.child a i = .ok b) : b.level = a.level + 1 :=
  Line.level_child h

theorem Valid.level_eq (he : e.Valid) : Element.level e = .ok e.tri.level :=
  level_eq_ok_of_eq he.1

theorem Valid.tri (he : e.Valid) : Element.Valid e.tri := he.2.2.1

theorem Valid.line (he : e.Valid) : Element.Valid e.line := he.2.2.2

theorem child_eq_ok_iff {c : Prism} :
    e.child i = .ok c ↔ i < 8 ∧ e.tri.level = e.line.level ∧ e.tri.level < depth ∧
      Element.child e.tri (i % 4) = .ok c.tri ∧ Element.child e.line (i / 4) = .ok c.line := by
  constructor
  · intro h
    obtain ⟨hi, h⟩ := of_require_bind h
    obtain ⟨l, hl, h⟩ := bind_eq_ok_iff.mp h
    obtain ⟨hd, h⟩ := of_require_bind h
    obtain ⟨tri, ht, h⟩ := bind_eq_ok_iff.mp h
    obtain ⟨line, hn, h⟩ := bind_eq_ok_iff.mp h
    obtain ⟨_, _, rfl⟩ := ofFactors_eq_ok_iff.mp h
    obtain ⟨heq, hl⟩ := of_require_bind hl
    cases hl
    exact ⟨hi, heq, hd, ht, hn⟩
  · rintro ⟨hi, heq, hd, ht, hn⟩
    rw [child, require_of_true hi, ok_bind, level_eq_ok_of_eq heq, ok_bind, require_of_true hd,
      ok_bind]
    refine both_eq ht hn ?_ ?_
    · rw [level_tri ht, level_line hn, heq]
    · rw [level_tri ht]
      exact hd

/-- Child `t` of the triangle and child `n` of the line make child `t + 4 * n`. -/
theorem ofFactors_eq_child {t n : Nat} {tri : Triangle} {line : Line} (he : e.Valid)
    (ht : Element.child e.tri t = .ok tri) (hn : Element.child e.line n = .ok line) :
    ofFactors tri line = e.child (t + 4 * n) := by
  have digitT : t < 4 := (bounds_of_child ht rfl).2
  have digitN : n < 2 := (bounds_of_child hn rfl).2
  have whole : t + 4 * n < 8 := by omega
  have own := level_tri ht
  have levels : tri.level = line.level := by rw [own, level_line hn, he.1]
  by_cases hl : e.tri.level < depth
  · have low : (t + 4 * n) % 4 = t := by omega
    have high : (t + 4 * n) / 4 = n := by omega
    rw [ofFactors_eq levels (own ▸ hl)]
    exact (child_eq_ok_iff.mpr ⟨whole, he.1, hl, low.symm ▸ ht, high.symm ▸ hn⟩).symm
  · have deep : ¬ tri.level ≤ depth := by omega
    rw [ofFactors, require_of_true levels, ok_bind, require_of_false deep, error_bind, child,
      require_of_true whole, ok_bind, level_eq_ok_of_eq he.1, ok_bind, require_of_false hl,
      error_bind]

theorem childId_eq {i j : Nat} (ht : Element.childId p.tri = .ok i)
    (hn : Element.childId p.line = .ok j) : childId p = .ok (i + 4 * j) := by
  have tri : Kuhn.childId p.tri = .ok i := ht
  have line : p.line.childId = .ok j := hn
  rw [childId, tri, ok_bind, line, ok_bind, pure_eq_ok]

theorem exists_child (hp : p.Valid) (hl : p.tri.level < depth) {i : Nat} (hi : i < 8) :
    ∃ c, child p i = .ok c ∧ c.Valid ∧ parent c = .ok p ∧ childId c = .ok i := by
  have low : p.tri.level < 21 := hl
  have heq := hp.1
  obtain ⟨tri, ht, vt, upT, idT⟩ := child_of_valid hp.tri rfl
    (show p.tri.level < 29 by omega) (show i % 4 < 4 by omega)
  obtain ⟨line, hn, vn, upN, idN⟩ := child_of_valid hp.line rfl
    (show p.line.level < 30 by omega) (show i / 4 < 2 by omega)
  have levels : tri.level = line.level := by rw [level_tri ht, level_line hn, heq]
  have bound : tri.level ≤ depth := by
    rw [level_tri ht]
    exact hl
  refine ⟨⟨tri, line⟩, child_eq_ok_iff.mpr ⟨hi, heq, hl, ht, hn⟩, ⟨levels, bound, vt, vn⟩,
    both_eq upT upN heq hl.le, ?_⟩
  rw [childId_eq idT idN, Nat.mod_add_div]

theorem exists_parent (hp : p.Valid) {l : Nat} (hl : p.tri.level = l + 1) :
    ∃ q i, i < 8 ∧ parent p = .ok q ∧ childId p = .ok i ∧ q.Valid ∧ child q i = .ok p := by
  have heq := hp.1
  have bound : p.tri.level ≤ 21 := hp.2.1
  obtain ⟨tri, t, htl, upT, idT, vt, downT⟩ := parent_of_valid hp.tri (congrArg Except.ok hl)
  obtain ⟨line, n, hnl, upN, idN, vn, downN⟩ :=
    parent_of_valid hp.line (congrArg Except.ok (heq.symm.trans hl))
  have htl : t < 4 := htl
  have hnl : n < 2 := hnl
  have levelT := level_tri downT
  have levelN := level_line downN
  have levels : tri.level = line.level := by omega
  have below : tri.level < depth := by
    change tri.level < 21
    omega
  have low : (t + 4 * n) % 4 = t := by omega
  have high : (t + 4 * n) / 4 = n := by omega
  refine ⟨⟨tri, line⟩, t + 4 * n, by omega, both_eq upT upN levels below.le, childId_eq idT idN,
    ⟨levels, below.le, vt, vn⟩, child_eq_ok_iff.mpr ⟨by omega, levels, below, ?_, ?_⟩⟩
  · rwa [low]
  · rwa [high]

instance : LawfulForest Prism where
  level_of_valid h := ⟨_, h.2.1, Valid.level_eq h⟩
  bounds_of_child {e c l i} h hl := by
    obtain ⟨hi, heq, hd, _⟩ := child_eq_ok_iff.mp h
    cases (level_eq_ok_of_eq heq).symm.trans hl
    exact ⟨hd, hi⟩
  child_of_valid {e l i} he hl hlt hi := by
    cases he.level_eq.symm.trans hl
    exact exists_child he hlt hi
  parent_of_valid {e l} he hl :=
    exists_parent he (Except.ok.inj (he.level_eq.symm.trans hl))

/-! ## Descents -/

theorem factors_of_descends {d : Prism} {k n : Nat} (h : Descends p k n d) :
    ∃ t m, n = weave 4 2 k t m ∧ Descends p.tri k t d.tri ∧ Descends p.line k m d.line :=
  Radix.descends_pair (f := tri) (g := line) rfl (fun hc => (child_eq_ok_iff.mp hc).2.2.2) h

theorem descends_of_factors {tri : Triangle} {line : Line} {k t m : Nat}
    (hp : p.tri.level = p.line.level) (hk : p.tri.level + k ≤ depth)
    (ht : Descends p.tri k t tri) (hm : Descends p.line k m line) :
    Descends p k (weave 4 2 k t m) ⟨tri, line⟩ := by
  induction k generalizing t m tri line with
  | zero =>
      obtain ⟨rfl, rfl⟩ := descends_zero_iff.mp ht
      obtain ⟨rfl, rfl⟩ := descends_zero_iff.mp hm
      exact .here
  | succ k ih =>
      obtain ⟨tri', ht', hct⟩ := descends_succ_iff.mp ht
      obtain ⟨line', hm', hcl⟩ := descends_succ_iff.mp hm
      have rest := ih (by omega) ht' hm'
      have levelT : tri'.level = p.tri.level + k := Except.ok.inj (ht'.level rfl)
      have levelN : line'.level = p.line.level + k := Except.ok.inj (hm'.level rfl)
      have lowDigit : t % 4 < 4 := Nat.mod_lt t (by decide)
      have highDigit : m % 2 < 2 := Nat.mod_lt m (by decide)
      have pair : t % 4 + 4 * (m % 2) < 8 := by omega
      have low : (t % 4 + 4 * (m % 2)) % 4 = t % 4 := by omega
      have high : (t % 4 + 4 * (m % 2)) / 4 = m % 2 := by omega
      have step : Element.child (⟨tri', line'⟩ : Prism) (t % 4 + 4 * (m % 2)) =
          .ok ⟨tri, line⟩ := by
        refine child_eq_ok_iff.mpr ⟨pair, ?_, ?_, ?_, ?_⟩
        · rw [levelT, levelN, hp]
        · change tri'.level < depth
          omega
        · rw [low]
          exact hct
        · rw [high]
          exact hcl
      have whole := Radix.weave_append lowDigit highDigit k (t / 4) (m / 2)
      rw [Nat.div_add_mod, Nat.div_add_mod] at whole
      exact whole ▸ Descends.child rest pair step

/-! ## Families -/

/-- The prisms over all pairs of factors, line by line. -/
def prisms (tris : List Triangle) (lines : List Line) : List Prism :=
  lines.flatMap fun line => tris.map (⟨·, line⟩)

theorem children_eq {tris : List Triangle} {lines : List Line} (heq : p.tri.level = p.line.level)
    (hl : p.tri.level < depth) (ht : Element.children p.tri = .ok tris)
    (hn : Element.children p.line = .ok lines) :
    Element.children p = .ok (prisms tris lines) := by
  have four : tris.length = 4 := length_children ht
  have two : lines.length = 2 := length_children hn
  obtain ⟨t₀, t₁, t₂, t₃, rfl⟩ : ∃ a b c d, tris = [a, b, c, d] := by
    match tris with
    | [a, b, c, d] => exact ⟨a, b, c, d, rfl⟩
  obtain ⟨n₀, n₁, rfl⟩ := List.length_eq_two.mp two
  have each : ∀ i ∈ List.range (branching Prism), Element.child p i =
      .ok ⟨[t₀, t₁, t₂, t₃][i % 4]?.getD t₀, [n₀, n₁][i / 4]?.getD n₀⟩ := by
    intro i hi
    have hi : i < 8 := List.mem_range.mp hi
    obtain ⟨c, hc, downT⟩ := getElem?_children ht (show i % 4 < 4 by omega)
    obtain ⟨d, hd, downN⟩ := getElem?_children hn (show i / 4 < 2 by omega)
    refine child_eq_ok_iff.mpr ⟨hi, heq, hl, ?_, ?_⟩
    · rw [downT, hc]
      rfl
    · rw [downN]
      exact congrArg (fun line? => Except.ok (line?.getD n₀)) hd.symm
  exact mapM_eq_ok each

theorem children_eq_ok_iff (hp : p.Valid) {family : List Prism} :
    Element.children p = .ok family ↔ p.tri.level < depth ∧ ∃ tris lines,
      Element.children p.tri = .ok tris ∧ Element.children p.line = .ok lines ∧
        family = prisms tris lines := by
  constructor
  · intro h
    have low : p.tri.level < 21 := level_lt_of_children h (Valid.level_eq hp)
    have heq := hp.1
    obtain ⟨tris, ht⟩ := exists_children hp.tri rfl (show p.tri.level < 29 by omega)
    obtain ⟨lines, hn⟩ := exists_children hp.line rfl (show p.line.level < 30 by omega)
    refine ⟨low, tris, lines, ht, hn, ?_⟩
    exact Except.ok.inj (h.symm.trans (children_eq heq low ht hn))
  · rintro ⟨low, tris, lines, ht, hn, rfl⟩
    exact children_eq hp.1 low ht hn

def Plane (plane : List Prism) : Prop :=
  (∃ t, Element.Valid t ∧ Element.children t = .ok (plane.map tri)) ∧
    ∀ p ∈ plane, some p.line = plane.head?.map line

def Column (lower upper : Prism) : Prop :=
  lower.tri = upper.tri ∧ ∃ n, Element.Valid n ∧
    Element.children n = .ok [lower.line, upper.line]

theorem isPlane_decides {plane : List Prism} (h : ∀ p ∈ plane, p.Valid) :
    Decides (isPlane plane) (Plane plane) := by
  have triangles : Decides (Kuhn.isFamily (plane.map tri)) _ :=
    isFamily_of_valid (E := Triangle) fun t ht => by
      obtain ⟨p, hp, rfl⟩ := List.mem_map.mp ht
      exact (h p hp).tri
  exact triangles.and fun _ => decides_of_ok

theorem isColumn_decides {lower upper : Prism} (hl : lower.Valid) (hu : upper.Valid) :
    Decides (isColumn lower upper) (Column lower upper) := by
  have lines : Decides (Line.isFamily [lower.line, upper.line]) _ :=
    isFamily_of_valid (E := Line) fun n hn => by
      rcases List.mem_cons.mp hn with rfl | hn
      · exact hl.line
      · rw [List.mem_singleton.mp hn]
        exact hu.line
  unfold isColumn
  split
  · next same => exact lines.congr ⟨fun h => ⟨same, h⟩, fun h => h.2⟩
  · next differ => exact decides_false fun h => differ h.1

def Eight (family : List Prism) (l : Nat) : Prop :=
  (¬ ∃ p ∈ family, p.tri.level ≠ l) ∧
    (∀ plane ∈ [family.take 4, family.drop 4], Plane plane) ∧
      ∀ pair ∈ (family.take 4).zip (family.drop 4), Column pair.1 pair.2

theorem isFamily_eight {first : Prism} {rest : List Prism}
    (h : ∀ p ∈ first :: rest, p.Valid) (hlen : (first :: rest).length = 8)
    (h0 : first.tri.level ≠ 0) :
    Decides (isFamily (first :: rest)) (Eight (first :: rest) first.tri.level) := by
  have level : first.level = .ok first.tri.level := (h first List.mem_cons_self).level_eq
  have inLower {p : Prism} (hp : p ∈ (first :: rest).take 4) := h p (List.mem_of_mem_take hp)
  have inUpper {p : Prism} (hp : p ∈ (first :: rest).drop 4) := h p (List.mem_of_mem_drop hp)
  unfold isFamily
  rw [if_neg (not_not.mpr hlen)]
  simp only [level, ok_bind, if_neg h0]
  apply Decides.not_and
  · apply Decides.anyM
    intro p hp
    have own : p.level = .ok p.tri.level := (h p hp).level_eq
    rw [own, ok_bind]
    exact decides_of_ok
  · intro _
    apply Decides.both
    · apply Decides.allM
      intro plane hplane
      apply isPlane_decides
      rcases List.mem_cons.mp hplane with rfl | hplane
      · exact fun p hp => inLower hp
      · rw [List.mem_singleton.mp hplane]
        exact fun p hp => inUpper hp
    · apply Decides.allM
      rintro ⟨lower, upper⟩ hpair
      obtain ⟨hl, hu⟩ := List.of_mem_zip hpair
      exact isColumn_decides (inLower hl) (inUpper hu)

theorem exists_parent_of_eight {a₀ a₁ a₂ a₃ b₀ b₁ b₂ b₃ : Prism}
    (h : ∀ p ∈ [a₀, a₁, a₂, a₃, b₀, b₁, b₂, b₃], p.Valid)
    (eight : Eight [a₀, a₁, a₂, a₃, b₀, b₁, b₂, b₃] a₀.tri.level) :
    ∃ p, Element.Valid p ∧ Element.children p = .ok [a₀, a₁, a₂, a₃, b₀, b₁, b₂, b₃] := by
  obtain ⟨_, planes, columns⟩ := eight
  obtain ⟨⟨t, vt, ht⟩, onLine⟩ := planes [a₀, a₁, a₂, a₃] (by simp)
  obtain ⟨_, onUpper⟩ := planes [b₀, b₁, b₂, b₃] (by simp)
  obtain ⟨c₀, n, vn, hn⟩ := columns (a₀, b₀) (by simp)
  have c₁ := (columns (a₁, b₁) (by simp)).1
  have c₂ := (columns (a₂, b₂) (by simp)).1
  have c₃ := (columns (a₃, b₃) (by simp)).1
  obtain ⟨heq, hbound, _⟩ := h a₀ (by simp)
  obtain ⟨_, hlt, hct⟩ := level_of_mem_children ht List.mem_cons_self
  obtain ⟨_, hln, hcn⟩ := level_of_mem_children hn List.mem_cons_self
  cases hlt
  cases hln
  have levelT : a₀.tri.level = t.level + 1 := Except.ok.inj hct
  have levelN : a₀.line.level = n.level + 1 := Except.ok.inj hcn
  have levels : t.level = n.level := by omega
  have low : t.level < depth := by omega
  refine ⟨⟨t, n⟩, ⟨levels, low.le, vt, vn⟩, (children_eq levels low ht hn).trans ?_⟩
  have l₁ := Option.some.inj (onLine a₁ (by simp))
  have l₂ := Option.some.inj (onLine a₂ (by simp))
  have l₃ := Option.some.inj (onLine a₃ (by simp))
  have u₁ := Option.some.inj (onUpper b₁ (by simp))
  have u₂ := Option.some.inj (onUpper b₂ (by simp))
  have u₃ := Option.some.inj (onUpper b₃ (by simp))
  simp only [prisms, List.map_cons, List.map_nil, List.flatMap_cons, List.flatMap_nil,
    List.cons_append, List.nil_append]
  have own (q : Prism) {t : Triangle} {n : Line} (ht : q.tri = t) (hn : q.line = n) :
      (⟨t, n⟩ : Prism) = q := by
    rw [← ht, ← hn]
  rw [own a₀ rfl rfl, own a₁ rfl l₁, own a₂ rfl l₂, own a₃ rfl l₃, own b₀ c₀.symm rfl,
    own b₁ c₁.symm u₁, own b₂ c₂.symm u₂, own b₃ c₃.symm u₃]

theorem eight_of_children {a₀ a₁ a₂ a₃ b₀ b₁ b₂ b₃ : Prism} {p : Prism} (vp : p.Valid)
    (hp : Element.children p = .ok [a₀, a₁, a₂, a₃, b₀, b₁, b₂, b₃]) :
    Eight [a₀, a₁, a₂, a₃, b₀, b₁, b₂, b₃] a₀.tri.level := by
  obtain ⟨low, tris, lines, ht, hn, eq⟩ := (children_eq_ok_iff vp).mp hp
  obtain ⟨t₀, t₁, t₂, t₃, rfl⟩ : ∃ a b c d, tris = [a, b, c, d] := by
    match tris, (length_children ht : tris.length = 4) with
    | [a, b, c, d], _ => exact ⟨a, b, c, d, rfl⟩
  obtain ⟨n₀, n₁, rfl⟩ := List.length_eq_two.mp (length_children hn)
  simp only [prisms, List.map_cons, List.map_nil, List.flatMap_cons, List.flatMap_nil,
    List.cons_append, List.nil_append, List.cons.injEq, and_true] at eq
  obtain ⟨rfl, rfl, rfl, rfl, rfl, rfl, rfl, rfl⟩ := eq
  have same {t : Triangle} (h : t ∈ [t₀, t₁, t₂, t₃]) : t.level = p.tri.level + 1 := by
    obtain ⟨_, hl, hc⟩ := level_of_mem_children ht h
    cases hl
    exact Except.ok.inj hc
  refine ⟨?_, ?_, ?_⟩
  · rintro ⟨q, hq, differ⟩
    have member : q.tri ∈ [t₀, t₁, t₂, t₃] := by
      simp only [List.mem_cons, List.not_mem_nil, or_false] at hq
      rcases hq with rfl | rfl | rfl | rfl | rfl | rfl | rfl | rfl <;> simp
    exact differ ((same member).trans (same List.mem_cons_self).symm)
  · intro plane hplane
    simp only [List.take, List.drop, List.mem_cons, List.not_mem_nil, or_false] at hplane
    rcases hplane with rfl | rfl
    · exact ⟨⟨p.tri, vp.tri, ht⟩, by simp⟩
    · exact ⟨⟨p.tri, vp.tri, ht⟩, by simp⟩
  · intro pair hpair
    simp only [List.take, List.drop, List.zip_cons_cons, List.zip_nil_right, List.mem_cons,
      List.not_mem_nil, or_false] at hpair
    rcases hpair with rfl | rfl | rfl | rfl <;> exact ⟨rfl, p.line, vp.line, hn⟩

theorem eight_iff {a₀ a₁ a₂ a₃ b₀ b₁ b₂ b₃ : Prism}
    (h : ∀ p ∈ [a₀, a₁, a₂, a₃, b₀, b₁, b₂, b₃], p.Valid) :
    Eight [a₀, a₁, a₂, a₃, b₀, b₁, b₂, b₃] a₀.tri.level ↔
      ∃ p, Element.Valid p ∧ Element.children p = .ok [a₀, a₁, a₂, a₃, b₀, b₁, b₂, b₃] := by
  constructor
  · exact exists_parent_of_eight h
  · rintro ⟨p, vp, hp⟩
    exact eight_of_children vp hp

theorem isFamily_decides {family : List Prism} (h : ∀ e ∈ family, e.Valid) :
    Decides (isFamily family) (∃ p, Element.Valid p ∧ Element.children p = .ok family) := by
  by_cases hlen : family.length = 8
  · obtain ⟨a₀, a₁, a₂, a₃, b₀, b₁, b₂, b₃, rfl⟩ :
        ∃ a₀ a₁ a₂ a₃ b₀ b₁ b₂ b₃, family = [a₀, a₁, a₂, a₃, b₀, b₁, b₂, b₃] := by
      match family with
      | [a₀, a₁, a₂, a₃, b₀, b₁, b₂, b₃] => exact ⟨a₀, a₁, a₂, a₃, b₀, b₁, b₂, b₃, rfl⟩
    by_cases h0 : a₀.tri.level = 0
    · have level : a₀.level = .ok a₀.tri.level := (h a₀ List.mem_cons_self).level_eq
      rw [isFamily, if_neg (not_not.mpr hlen)]
      simp only [level, ok_bind, if_pos h0, pure_eq_ok]
      exact decides_false (not_family_of_level_zero (h0 ▸ level))
    · exact (isFamily_eight h hlen h0).congr (eight_iff h)
  · unfold isFamily
    rw [if_pos hlen, pure_eq_ok]
    exact decides_false (not_family_of_length_ne hlen)

/-! ## Navigation -/

instance : LawfulNavigation Prism where
  ancestor_of_valid {e l target} he hl ht := by
    cases he.level_eq.symm.trans hl
    obtain ⟨a, i, ha, hi⟩ := exists_ancestor he he.level_eq (Nat.sub_le _ target)
    have levels := Except.ok.inj (he.level_eq.symm.trans (hi.level ha.level_eq))
    obtain ⟨t, m, _, ht', hm⟩ := factors_of_descends hi
    have own : a.tri.level = target := by omega
    rw [hi.climb ha]
    refine both_eq ?_ ?_ ha.1 ha.2.1
    · exact own ▸ ht'.ancestor ha.tri rfl
    · exact own ▸ ha.1 ▸ hm.ancestor ha.line rfl
  firstDescendant_of_valid {e l target} he hl hle ht := by
    cases he.level_eq.symm.trans hl
    have heq := he.1
    have bound : target ≤ 21 := ht
    obtain ⟨tri, ht', hdt⟩ := firstDescendant_of_valid he.tri rfl hle (show target ≤ 29 by omega)
    obtain ⟨line, hn', hdn⟩ := firstDescendant_of_valid he.line rfl (heq ▸ hle)
      (show target ≤ 30 by omega)
    have levelT : tri.level = e.tri.level + (target - e.tri.level) :=
      Except.ok.inj (hdt.level rfl)
    have levelN : line.level = e.line.level + (target - e.line.level) :=
      Except.ok.inj (hdn.level rfl)
    refine ⟨⟨tri, line⟩, both_eq ht' hn' (by omega) ?_, ?_⟩
    · rw [levelT, Nat.add_sub_cancel' hle]
      exact ht
    · rw [← heq] at hdn
      have first := descends_of_factors heq (by rwa [Nat.add_sub_cancel' hle]) hdt hdn
      rwa [Radix.weave_zero_zero] at first
  isFamily_of_valid h := isFamily_decides h

end MeshCurve.Prism
