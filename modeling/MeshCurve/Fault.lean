/-!
# Faults

An operation on mesh elements is partial: it may be asked for the parent of a
root, for a ninth child, or for a coordinate that does not fit its word.  Such a
call yields a `Fault` in place of a value.  `require`, `word`, `coordinate` and
`reserve` are the checks that the other modules are built from.
-/

namespace MeshCurve

/-- The reason an operation has no value. -/
inductive Fault where
  /-- a precondition of the operation does not hold -/
  | contract
  /-- a number leaves the range of its word, a shift exceeds the width, or an array
  the memory that can be addressed -/
  | range
  /-- a table has no such entry, or a divisor is zero -/
  | index
deriving DecidableEq, Repr

def require (p : Prop) [Decidable p] : Except Fault Unit :=
  if p then .ok () else .error .contract

/-- Ids and counters are 64-bit words. -/
abbrev wordBound : Nat := 0x10000000000000000

def word (n : Nat) : Except Fault Nat :=
  if n < wordBound then .ok n else .error .range

def wrapWord (n : Nat) : Nat := n % wordBound

/-- The low 64 bits of a number in two's complement. -/
def toWord (x : Int) : Nat := (x % wordBound).toNat

/-- Coordinates are signed 32-bit numbers. -/
def IsCoordinate (x : Int) : Prop := -0x80000000 ≤ x ∧ x < 0x80000000

instance (x : Int) : Decidable (IsCoordinate x) :=
  inferInstanceAs (Decidable (_ ∧ _))

def coordinate (x : Int) : Except Fault Int :=
  if IsCoordinate x then .ok x else .error .range

/-- Room for an array of `count` records, whose bytes a signed 64-bit number counts. -/
def reserve (count recordBytes : Nat) : Except Fault Unit :=
  if count * recordBytes < 0x8000000000000000 then .ok () else .error .range

/-- What had been reached when a fault stopped a longer operation. -/
structure Interrupted (State : Type) where
  fault : Fault
  reached : State
deriving Repr

/-- Runs a single call inside a longer operation that has reached `reached`. -/
def during {State α : Type} (reached : State) (call : Except Fault α) :
    Except (Interrupted State) α :=
  call.mapError (⟨·, reached⟩)

theorem mapError_eq_ok_iff {ε ε' α : Type} {call : Except ε α} {f : ε → ε'} {a : α} :
    call.mapError f = .ok a ↔ call = .ok a := by
  cases call with
  | error e => exact iff_of_false nofun nofun
  | ok b =>
      constructor
      · exact fun h => congrArg Except.ok (Except.ok.inj h)
      · exact fun h => congrArg Except.ok (Except.ok.inj h)

theorem during_eq_ok_iff {State α : Type} {reached : State} {call : Except Fault α} {a : α} :
    during reached call = .ok a ↔ call = .ok a :=
  mapError_eq_ok_iff

theorem during_of_ok {State α : Type} {reached : State} {call : Except Fault α} {a : α}
    (h : call = .ok a) : during reached call = .ok a :=
  during_eq_ok_iff.mpr h

/-! ## Sequencing -/

section

variable {ε α β : Type}

theorem ok_bind (a : α) (f : α → Except ε β) : (Except.ok a >>= f) = f a := rfl

theorem pure_eq_ok (a : α) : (pure a : Except ε α) = .ok a := rfl

theorem error_bind (e : ε) (f : α → Except ε β) :
    (Except.error e >>= f) = .error e := rfl

theorem bind_eq_ok_iff {x : Except ε α} {f : α → Except ε β} {b : β} :
    (x >>= f) = .ok b ↔ ∃ a, x = .ok a ∧ f a = .ok b := by
  cases x with
  | error e => simp [error_bind]
  | ok a => simp [ok_bind]

theorem mapM_eq_ok {f : α → Except ε β} {g : α → β} {xs : List α}
    (h : ∀ x ∈ xs, f x = .ok (g x)) : xs.mapM f = .ok (xs.map g) := by
  induction xs with
  | nil => rfl
  | cons x xs ih =>
      rw [List.mapM_cons, h x (by simp), ih fun y hy => h y (by simp [hy])]
      rfl

theorem exists_mapM_eq_ok {f : α → Except ε β} {xs : List α}
    (h : ∀ x ∈ xs, ∃ y, f x = .ok y) : ∃ ys, xs.mapM f = .ok ys := by
  induction xs with
  | nil => exact ⟨[], rfl⟩
  | cons x xs ih =>
      obtain ⟨y, hy⟩ := h x (by simp)
      obtain ⟨ys, hys⟩ := ih fun z hz => h z (by simp [hz])
      refine ⟨y :: ys, ?_⟩
      rw [List.mapM_cons, hy, hys]
      rfl

theorem getElem?_of_mapM_eq_ok {f : α → Except ε β} {xs : List α} {ys : List β}
    (h : xs.mapM f = .ok ys) {i : Nat} {x : α} (hx : xs[i]? = some x) :
    ∃ y, ys[i]? = some y ∧ f x = .ok y := by
  induction xs generalizing ys i with
  | nil => simp at hx
  | cons x' xs ih =>
      rw [List.mapM_cons] at h
      obtain ⟨z, hz, h⟩ := bind_eq_ok_iff.mp h
      obtain ⟨zs, hzs, h⟩ := bind_eq_ok_iff.mp h
      cases h
      cases i with
      | zero =>
          cases hx
          exact ⟨z, rfl, hz⟩
      | succ i => exact ih hzs hx

theorem length_of_mapM_eq_ok {f : α → Except ε β} {xs : List α} {ys : List β}
    (h : xs.mapM f = .ok ys) : ys.length = xs.length := by
  induction xs generalizing ys with
  | nil =>
      cases h
      rfl
  | cons x xs ih =>
      rw [List.mapM_cons] at h
      obtain ⟨y, _, h⟩ := bind_eq_ok_iff.mp h
      obtain ⟨zs, hzs, h⟩ := bind_eq_ok_iff.mp h
      cases h
      simp [ih hzs]

theorem exists_of_mem_of_mapM_eq_ok {f : α → Except ε β} {xs : List α} {ys : List β}
    (h : xs.mapM f = .ok ys) {y : β} (hy : y ∈ ys) : ∃ x ∈ xs, f x = .ok y := by
  induction xs generalizing ys with
  | nil =>
      cases h
      simp at hy
  | cons x xs ih =>
      rw [List.mapM_cons] at h
      obtain ⟨z, hz, h⟩ := bind_eq_ok_iff.mp h
      obtain ⟨zs, hzs, h⟩ := bind_eq_ok_iff.mp h
      cases h
      rcases List.mem_cons.mp hy with rfl | hy
      · exact ⟨x, by simp, hz⟩
      · obtain ⟨w, hw, hwy⟩ := ih hzs hy
        exact ⟨w, by simp [hw], hwy⟩

/-- The call answers whether a proposition holds. -/
def Decides (call : Except ε Bool) (p : Prop) : Prop := ∃ b, call = .ok b ∧ (b = true ↔ p)

theorem decides_of_ok {p : Prop} [Decidable p] : Decides (.ok (decide p) : Except ε Bool) p :=
  ⟨_, rfl, decide_eq_true_iff⟩

theorem decides_false {p : Prop} (h : ¬ p) : Decides (.ok false : Except ε Bool) p :=
  ⟨false, rfl, ⟨fun no => absurd no Bool.false_ne_true, fun hp => absurd hp h⟩⟩

theorem Decides.congr {call : Except ε Bool} {p q : Prop} (h : Decides call p) (hpq : p ↔ q) :
    Decides call q := by
  obtain ⟨b, hb, hiff⟩ := h
  exact ⟨b, hb, hiff.trans hpq⟩

theorem Decides.after {x : Except ε α} {f : α → Except ε Bool} {a : α} {p : Prop}
    (hx : x = .ok a) (h : Decides (f a) p) : Decides (x >>= f) p := by
  rw [hx, ok_bind]
  exact h

theorem Decides.eq_true {call : Except ε Bool} {p : Prop} (h : Decides call p) (hp : p) :
    call = .ok true := by
  obtain ⟨b, hb, hiff⟩ := h
  rw [hb, hiff.mpr hp]

theorem Decides.eq_false {call : Except ε Bool} {p : Prop} (h : Decides call p) (hp : ¬ p) :
    call = .ok false := by
  obtain ⟨b, hb, hiff⟩ := h
  rw [hb, Bool.eq_false_iff.mpr fun hb => hp (hiff.mp hb)]

theorem Decides.eq_true_iff {call : Except ε Bool} {p : Prop} (h : Decides call p) :
    call = .ok true ↔ p := by
  obtain ⟨b, hb, hiff⟩ := h
  rw [hb, Except.ok.injEq, hiff]

theorem Decides.eq_false_iff {call : Except ε Bool} {p : Prop} (h : Decides call p) :
    call = .ok false ↔ ¬ p := by
  obtain ⟨b, hb, hiff⟩ := h
  rw [hb, Except.ok.injEq, ← hiff, Bool.not_eq_true]

theorem Decides.eq_of_iff {call call' : Except ε Bool} {p q : Prop} (h : Decides call p)
    (h' : Decides call' q) (hpq : p ↔ q) : call = call' := by
  obtain ⟨b, hb, hiff⟩ := h
  obtain ⟨b', hb', hiff'⟩ := h'
  rw [hb, hb', Bool.eq_iff_iff.mpr (hiff.trans (hpq.trans hiff'.symm))]

/-- The second question is asked only if the first one is answered with yes. -/
theorem Decides.and {call then' : Except ε Bool} {p q : Prop} (h : Decides call p)
    (h' : p → Decides then' q) :
    Decides (do if ← call then then' else return false) (p ∧ q) := by
  obtain ⟨b, hb, hiff⟩ := h
  rw [hb, ok_bind]
  cases b with
  | false => exact decides_false fun both => Bool.false_ne_true (hiff.mpr both.1)
  | true =>
      have hp := hiff.mp rfl
      exact (h' hp).congr ⟨fun hq => ⟨hp, hq⟩, fun both => both.2⟩

/-- The second question is asked only if the first one is answered with no. -/
theorem Decides.not_and {call then' : Except ε Bool} {p q : Prop} (h : Decides call p)
    (h' : ¬ p → Decides then' q) :
    Decides (do if ← call then return false else then') (¬ p ∧ q) := by
  obtain ⟨b, hb, hiff⟩ := h
  rw [hb, ok_bind]
  cases b with
  | true => exact decides_false fun both => both.1 (hiff.mp rfl)
  | false =>
      have hp : ¬ p := fun hp => Bool.false_ne_true (hiff.mpr hp)
      exact (h' hp).congr ⟨fun hq => ⟨hp, hq⟩, fun both => both.2⟩

theorem Decides.both {call call' : Except ε Bool} {p q : Prop} (h : Decides call p)
    (h' : Decides call' q) :
    Decides (do let a ← call; let b ← call'; return a && b) (p ∧ q) := by
  obtain ⟨a, ha, hp⟩ := h
  obtain ⟨b, hb, hq⟩ := h'
  rw [ha, ok_bind, hb, ok_bind]
  exact ⟨a && b, rfl, by rw [Bool.and_eq_true, hp, hq]⟩

theorem Decides.allM {f : α → Except ε Bool} {p : α → Prop} {xs : List α}
    (h : ∀ x ∈ xs, Decides (f x) (p x)) : Decides (xs.allM f) (∀ x ∈ xs, p x) := by
  induction xs with
  | nil => exact ⟨true, rfl, by simp⟩
  | cons x xs ih =>
      have rest := ih fun y hy => h y (by simp [hy])
      have whole := (h x (by simp)).and fun _ => rest
      have unfold : (x :: xs).allM f = (do if ← f x then xs.allM f else return false) := by
        rw [List.allM]
        congr 1
        funext b
        cases b <;> rfl
      rw [unfold]
      exact whole.congr (by rw [List.forall_mem_cons])

theorem Decides.anyM {f : α → Except ε Bool} {p : α → Prop} {xs : List α}
    (h : ∀ x ∈ xs, Decides (f x) (p x)) : Decides (xs.anyM f) (∃ x ∈ xs, p x) := by
  induction xs with
  | nil => exact decides_false (by simp)
  | cons x xs ih =>
      obtain ⟨b, hb, hiff⟩ := h x (by simp)
      rw [List.anyM, hb, ok_bind]
      cases b with
      | true => exact ⟨true, rfl, by simp [hiff.mp rfl]⟩
      | false =>
          have hx : ¬ p x := fun hx => Bool.false_ne_true (hiff.mpr hx)
          exact (ih fun y hy => h y (by simp [hy])).congr (by simp [hx])

/-- The first member may be what makes the others decidable. -/
theorem Decides.allM_cons {f : α → Except ε Bool} {p : α → Prop} {x : α} {xs : List α}
    (head : Decides (f x) (p x)) (tail : p x → ∀ y ∈ xs, Decides (f y) (p y)) :
    Decides ((x :: xs).allM f) (∀ y ∈ x :: xs, p y) := by
  by_cases hx : p x
  · apply Decides.allM
    intro y hy
    rcases List.mem_cons.mp hy with rfl | hy
    · exact head
    · exact tail hx y hy
  · rw [List.allM, head.eq_false hx, ok_bind]
    exact decides_false fun all => hx (all x (by simp))

end

/-! ## Checks -/

theorem require_eq_ok_iff {p : Prop} [Decidable p] {u : Unit} :
    require p = .ok u ↔ p := by
  by_cases h : p <;> simp [require, h]

theorem require_of_true {p : Prop} [Decidable p] (h : p) : require p = .ok () :=
  require_eq_ok_iff.mpr h

theorem require_of_false {p : Prop} [Decidable p] (h : ¬ p) :
    require p = .error .contract := if_neg h

theorem of_require_bind {β : Type} {p : Prop} [Decidable p] {f : Unit → Except Fault β} {b : β}
    (h : (require p >>= f) = .ok b) : p ∧ f () = .ok b := by
  obtain ⟨u, hp, h⟩ := bind_eq_ok_iff.mp h
  exact ⟨require_eq_ok_iff.mp hp, h⟩

theorem word_eq_ok_iff {n m : Nat} : word n = .ok m ↔ n < wordBound ∧ n = m := by
  unfold word
  split
  case isTrue h => simp only [Except.ok.injEq, h, true_and]
  case isFalse h => simp only [reduceCtorEq, h, false_and]

theorem word_of_lt {n : Nat} (h : n < wordBound) : word n = .ok n :=
  word_eq_ok_iff.mpr ⟨h, rfl⟩

theorem wrapWord_of_lt {n : Nat} (h : n < wordBound) : wrapWord n = n := Nat.mod_eq_of_lt h

theorem coordinate_eq_ok_iff {x y : Int} :
    coordinate x = .ok y ↔ IsCoordinate x ∧ x = y := by
  by_cases h : IsCoordinate x <;> simp [coordinate, h]

theorem coordinate_of_isCoordinate {x : Int} (h : IsCoordinate x) :
    coordinate x = .ok x :=
  coordinate_eq_ok_iff.mpr ⟨h, rfl⟩

/-- Nothing but a number that leaves its word stops the call. -/
def OnlyOverflows {α : Type} (call : Except Fault α) : Prop :=
  ∀ fault, call = .error fault → fault = .range

theorem onlyOverflows_ok {α : Type} (a : α) : OnlyOverflows (.ok a) := by
  simp [OnlyOverflows]

theorem onlyOverflows_coordinate (x : Int) : OnlyOverflows (coordinate x) := by
  intro fault h
  unfold coordinate at h
  split at h <;> simp_all

theorem OnlyOverflows.bind {α β : Type} {x : Except Fault α} {f : α → Except Fault β}
    (h : OnlyOverflows x) (h' : ∀ a, OnlyOverflows (f a)) : OnlyOverflows (x >>= f) := by
  cases x with
  | error fault =>
      intro fault' same
      cases same
      exact h fault rfl
  | ok a => exact h' a

theorem reserve_eq_ok_iff {count recordBytes : Nat} {u : Unit} :
    reserve count recordBytes = .ok u ↔ count * recordBytes < 0x8000000000000000 := by
  by_cases h : count * recordBytes < 0x8000000000000000 <;> simp [reserve, h]

end MeshCurve
