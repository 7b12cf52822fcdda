import MeshCurve.Proofs.Forest

/-!
# The space-filling curve

The curve visits the elements below the root.  On a level it takes them in the
order of their numbers: the id of an element at its own level is its number among
the descendants of the root, at a coarser level the id of its ancestor, and at a
finer level that of its first descendant.
-/

namespace MeshCurve.Shape

theorem shiftLeft_eq_mul (s : Shape) (x n : Nat) :
    x <<< (s.dimension * n) = x * s.numChildren ^ n := by
  rw [numChildren_eq_shiftLeft, Nat.one_shiftLeft, Nat.shiftLeft_eq, Nat.pow_mul]

theorem shiftRight_eq_div (s : Shape) (x n : Nat) :
    x >>> (s.dimension * n) = x / s.numChildren ^ n := by
  rw [numChildren_eq_shiftLeft, Nat.one_shiftLeft, Nat.shiftRight_eq_div_pow, Nat.pow_mul]

end MeshCurve.Shape

namespace MeshCurve.Element

variable {E : Type} [Element E]

def InRoot (e : E) : Prop := Valid e ∧ isInsideRoot e = .ok true

theorem inRoot_iff_of_decides {e : E} {p : Prop} (he : Valid e)
    (test : Decides (isInsideRoot e) p) : InRoot e ↔ p :=
  ⟨fun h => test.eq_true_iff.mp h.2, fun h => ⟨he, test.eq_true h⟩⟩

/-! ## Ids at other levels -/

/-- Carries number `i` of a level to another level: digits are cut off or zeros
appended. -/
def idAt (base level i target : Nat) : Nat :=
  if target ≤ level then i / base ^ (level - target) else i * base ^ (target - level)

theorem idAt_of_le {base level i target : Nat} (h : target ≤ level) :
    idAt base level i target = i / base ^ (level - target) := if_pos h

theorem idAt_of_ge {base level i target : Nat} (h : level ≤ target) :
    idAt base level i target = i * base ^ (target - level) := by
  rcases Nat.eq_or_lt_of_le h with rfl | hlt
  · simp [idAt]
  · exact if_neg (Nat.not_le.mpr hlt)

@[simp] theorem idAt_self (base level i : Nat) : idAt base level i level = i := by
  simp [idAt]

theorem idAt_lt {base level i target : Nat} (hb : 0 < base) (hi : i < base ^ level) :
    idAt base level i target < base ^ target := by
  rcases Nat.le_total target level with h | h
  · rw [idAt_of_le h]
    apply Nat.div_lt_of_lt_mul
    rwa [← pow_add, Nat.sub_add_cancel h]
  · rw [idAt_of_ge h]
    calc i * base ^ (target - level) < base ^ level * base ^ (target - level) :=
          Nat.mul_lt_mul_of_pos_right hi (Nat.pow_pos hb)
      _ = base ^ target := by rw [← pow_add, Nat.add_sub_cancel' h]

theorem idAt_child_of_lt {base level i j target : Nat} (h : level < target) :
    idAt base (level + 1) (base * i + j) target =
      idAt base level i target + j * base ^ (target - (level + 1)) := by
  have exponent : target - level = target - (level + 1) + 1 := by omega
  rw [idAt_of_ge h, idAt_of_ge h.le, exponent, pow_succ]
  ring

theorem idAt_child_of_le {base level i j target : Nat} (hj : j < base) (h : target ≤ level) :
    idAt base (level + 1) (base * i + j) target = idAt base level i target := by
  have exponent : level + 1 - target = level - target + 1 := by omega
  rw [idAt_of_le (h.trans (Nat.le_succ level)), idAt_of_le h, exponent, pow_succ',
    ← Nat.div_div_eq_div_mul, Nat.mul_add_div (Nat.zero_lt_of_lt hj), Nat.div_eq_of_lt hj,
    Nat.add_zero]

/-! ## Carrying -/

/-- The way from number `n` of level `t` to the next one: past all last digits, the
digit `j` of level `m + 1` has a successor; `q` is what stands before it. -/
inductive Turn (base : Nat) : (t n m q j : Nat) → Prop
  | stay {m q j : Nat} : j + 1 < base → Turn base (m + 1) (base * q + j) m q j
  | carry {t n m q j : Nat} : Turn base t n m q j →
      Turn base (t + 1) (base * n + (base - 1)) m q j

theorem Turn.digit_lt {base t n m q j : Nat} (h : Turn base t n m q j) : j + 1 < base := by
  induction h with
  | stay hj => exact hj
  | carry _ ih => exact ih

theorem Turn.level_lt {base t n m q j : Nat} (h : Turn base t n m q j) : m < t := by
  induction h with
  | stay => exact Nat.lt_succ_self _
  | carry _ ih => exact Nat.lt_succ_of_lt ih

/-- The next number has the next digit at the turn and zeros after it. -/
theorem Turn.succ_eq {base t n m q j : Nat} (hb : 0 < base) (h : Turn base t n m q j) :
    n + 1 = (base * q + (j + 1)) * base ^ (t - (m + 1)) := by
  induction h with
  | stay => simp [Nat.add_assoc]
  | @carry t n m q j h ih =>
      have exponent : t + 1 - (m + 1) = t - (m + 1) + 1 := by
        have := h.level_lt
        omega
      calc base * n + (base - 1) + 1 = base * (n + 1) := by
            rw [Nat.mul_succ]
            omega
        _ = (base * q + (j + 1)) * base ^ (t + 1 - (m + 1)) := by
            rw [ih, exponent, pow_succ']
            ring

theorem last_or_turn {base t n : Nat} (hn : n < base ^ t) :
    n + 1 = base ^ t ∨ ∃ m q j, Turn base t n m q j := by
  induction t generalizing n with
  | zero => exact .inl (by rw [pow_zero] at hn ⊢; omega)
  | succ t ih =>
      have hb : 0 < base := Nat.pos_of_ne_zero fun h => by simp [h] at hn
      have hq : n / base < base ^ t := Nat.div_lt_of_lt_mul (by rwa [← pow_succ'])
      have hr : n % base < base := Nat.mod_lt n hb
      rw [← Nat.div_add_mod n base]
      generalize n / base = i at hq
      generalize n % base = r at hr
      by_cases room : r + 1 < base
      · exact .inr ⟨t, i, r, .stay room⟩
      · obtain rfl : r = base - 1 := by omega
        rcases ih hq with last | ⟨m, q, j, turn⟩
        · left
          calc base * i + (base - 1) + 1 = base * (i + 1) := by
                rw [Nat.mul_succ]
                omega
            _ = base ^ (t + 1) := by rw [last, pow_succ']
        · exact .inr ⟨m, q, j, .carry turn⟩

theorem digits_of_last {base t i j : Nat} (hj : j < base)
    (last : base * i + j + 1 = base ^ (t + 1)) : j + 1 = base ∧ i + 1 = base ^ t := by
  have hi : i < base ^ t := by
    apply Nat.lt_of_mul_lt_mul_left (a := base)
    rw [← pow_succ']
    omega
  have room : base * (i + 1) ≤ base * base ^ t := Nat.mul_le_mul_left _ hi
  rw [← pow_succ', ← last, Nat.mul_succ] at room
  have full : j + 1 = base := by omega
  refine ⟨full, Nat.eq_of_mul_eq_mul_left (Nat.zero_lt_of_lt hj) ?_⟩
  rw [← pow_succ', ← last, Nat.mul_succ]
  omega

/-! ## Numbering -/

/-- What a shape has to prove about its root and its ids. -/
class LawfulNumbering (E : Type) [Element E] : Prop extends LawfulNavigation E where
  valid_root : Valid (root : E)
  level_root : level (root : E) = .ok 0
  isInsideRoot_child {p c : E} {i : Nat} : Valid p → child p i = .ok c →
    isInsideRoot c = isInsideRoot p
  isInsideRoot_of_level_zero {r : E} : Valid r → level r = .ok 0 →
    Decides (isInsideRoot r) (r = root)
  linearId_of_descends {e : E} {l i target : Nat} : Descends root l i e →
    target ≤ finest E → linearId e target = .ok (idAt (branching E) l i target)
  ofLinearId_of_descends {e : E} {l i : Nat} : Descends root l i e →
    ofLinearId l i = .ok e

export LawfulNumbering (valid_root level_root isInsideRoot_child isInsideRoot_of_level_zero
  linearId_of_descends ofLinearId_of_descends)

section

variable [LawfulNumbering E]

theorem Descends.level_of_root {e : E} {l i : Nat} (h : Descends root l i e) :
    Element.level e = .ok l := by
  simpa using h.level level_root

theorem Descends.valid_of_root {e : E} {l i : Nat} (h : Descends root l i e) : Valid e :=
  h.valid valid_root

theorem Descends.isInsideRoot_eq {a d : E} {k i : Nat} (ha : Valid a) (h : Descends a k i d) :
    isInsideRoot d = isInsideRoot a := by
  induction h with
  | here => rfl
  | child h _ hc ih => rw [isInsideRoot_child (h.valid ha) hc, ih]

/-- The elements inside the root are those below it. -/
theorem isInsideRoot_of_valid {e : E} (he : Valid e) :
    Decides (isInsideRoot e) (Below root e) := by
  obtain ⟨r, k, i, hr, hl, h⟩ := exists_root he
  rw [h.isInsideRoot_eq hr]
  refine (isInsideRoot_of_level_zero hr hl).congr ?_
  constructor
  · rintro rfl
    exact ⟨k, i, h⟩
  · rintro ⟨m, j, h'⟩
    have levels := Except.ok.inj ((h.level hl).symm.trans (h'.level level_root))
    obtain rfl : k = m := by omega
    exact Except.ok.inj ((h.climb hr).symm.trans (h'.climb valid_root))

/-- On level zero every element has one ancestor, the root for those below it. -/
theorem exists_ancestor_zero {e : E} (he : Valid e) :
    ∃ r, Element.ancestor e 0 = .ok r ∧ (r = root ↔ Below root e) := by
  obtain ⟨r, k, i, hr, hl, h⟩ := exists_root he
  have top := h.ancestor hr hl
  refine ⟨r, top, ?_⟩
  constructor
  · rintro rfl
    exact ⟨k, i, h⟩
  · rintro ⟨m, j, h'⟩
    exact Except.ok.inj (top.symm.trans (h'.ancestor valid_root level_root))

theorem inRoot_iff {e : E} : InRoot e ↔ ∃ l i, Descends root l i e := by
  constructor
  · rintro ⟨he, inside⟩
    exact (isInsideRoot_of_valid he).eq_true_iff.mp inside
  · rintro ⟨l, i, h⟩
    exact ⟨h.valid_of_root, (isInsideRoot_of_valid h.valid_of_root).eq_true ⟨l, i, h⟩⟩

theorem Descends.inRoot {e : E} {l i : Nat} (h : Descends root l i e) : InRoot e :=
  inRoot_iff.mpr ⟨l, i, h⟩

theorem exists_descends_root {l i : Nat} (hl : l ≤ finest E) (hi : i < branching E ^ l) :
    ∃ e : E, Descends root l i e :=
  exists_descends valid_root level_root (by omega) hi

/-- The element in which the id at another level is taken. -/
theorem Descends.exists_idAt {e : E} {l i target : Nat} (h : Descends root l i e)
    (ht : target ≤ finest E) :
    ∃ s, Descends root target (idAt (branching E) l i target) s ∧
      (target ≤ l → Element.ancestor e target = .ok s) ∧
      (l ≤ target → firstDescendant e target = .ok s) := by
  rcases Nat.le_total target l with hle | hge
  · obtain ⟨k, rfl⟩ := Nat.exists_eq_add_of_le hle
    obtain ⟨s, hs, hse⟩ := h.split
    have up := hse.ancestor hs.valid_of_root hs.level_of_root
    refine ⟨s, by rwa [idAt_of_le hle, Nat.add_sub_cancel_left], fun _ => up, ?_⟩
    intro hge
    obtain rfl : k = 0 := by omega
    obtain ⟨d, hd, hed⟩ := firstDescendant_of_valid h.valid_of_root h.level_of_root hge ht
    rw [Nat.add_zero, Nat.sub_self, descends_zero_iff] at hed
    rw [hd, hed.2, (descends_zero_iff.mp hse).2]
  · obtain ⟨d, hd, hed⟩ := firstDescendant_of_valid h.valid_of_root h.level_of_root hge ht
    have down := h.trans hed
    rw [Nat.add_sub_cancel' hge, Nat.add_zero, ← idAt_of_ge hge] at down
    refine ⟨d, down, ?_, fun _ => hd⟩
    intro hle
    obtain rfl := Nat.le_antisymm hle hge
    rw [Nat.sub_self, descends_zero_iff] at hed
    have self := Descends.here.ancestor h.valid_of_root h.level_of_root
    rw [self, hed.2]

end

/-! ## Succession -/

/-- The next element of a level is the one with the next id; the last has none. -/
def SuccessorLaw (e : E) (l i target : Nat) : Prop :=
  if idAt (branching E) l i target + 1 = branching E ^ target then
    successor e target = .error .contract
  else ∃ d, successor e target = .ok d ∧
    Descends root target (idAt (branching E) l i target + 1) d

/-- From the turn the way leads to the next child and on along first children. -/
theorem Turn.exists_next [LawfulNumbering E] {u : E} {target n m q j : Nat}
    (turn : Turn (branching E) target n m q j) (ht : target ≤ finest E)
    (h : Descends root (m + 1) (branching E * q + j) u) :
    ∃ p c d, parent u = .ok p ∧ childId u = .ok j ∧ child p (j + 1) = .ok c ∧
      firstDescendant c target = .ok d ∧ Descends root target (n + 1) d := by
  obtain ⟨p, hp, hu⟩ := (descends_child_iff (Nat.lt_of_succ_lt turn.digit_lt)).mp h
  obtain ⟨_, up, digit⟩ := of_child hp.valid_of_root hu
  have hlt := turn.level_lt
  obtain ⟨c, hc, vc, _⟩ := child_of_valid hp.valid_of_root hp.level_of_root
    (hlt.trans_le ht) turn.digit_lt
  have next := hp.child turn.digit_lt hc
  obtain ⟨d, hd, first⟩ := firstDescendant_of_valid vc next.level_of_root hlt ht
  have whole := next.trans first
  rw [Nat.add_sub_cancel' hlt, Nat.add_zero, ← turn.succ_eq (branching_pos E)] at whole
  exact ⟨p, c, d, up, digit, hc, hd, whole⟩

/-- Decoding the next id is one way to the next element. -/
theorem successorLaw_of_decode [LawfulNumbering E] {e : E} {l i target : Nat}
    (h : Descends root l i e) (ht : target ≤ finest E)
    (step : successor e target = linearId e target >>= fun id => ofLinearId target (id + 1))
    (last : ofLinearId target (branching E ^ target) = .error (α := E) .contract) :
    SuccessorLaw e l i target := by
  unfold SuccessorLaw
  rw [step, linearId_of_descends h ht, ok_bind]
  have small : idAt (branching E) l i target < branching E ^ target :=
    idAt_lt (branching_pos E) h.lt
  split
  · next full => rw [full, last]
  · next room =>
      obtain ⟨d, hd⟩ := exists_descends_root (E := E) ht (Nat.lt_of_le_of_ne small room)
      exact ⟨d, ofLinearId_of_descends hd, hd⟩

/-- What a shape has to prove about the way from one element to the next. -/
class LawfulCurve (E : Type) [Element E] : Prop extends LawfulNumbering E where
  successor_of_descends {e : E} {l i target : Nat} : Descends root l i e → 1 ≤ target →
    target ≤ finest E → SuccessorLaw e l i target

export LawfulCurve (successor_of_descends)

end MeshCurve.Element
