import MeshCurve.Proofs.Extent
import MeshCurve.Proofs.Grid.Conformity
import MeshCurve.Proofs.Walk.Prism

/-!
# Walks

A walk goes from element to element by calls that return elements.  Where a call has no
value, the walk stays, and where it has several, the walk goes on from any of them.  No
step leads from a valid element to one that is not, and the step across a face is the
only one that leads out of the root.
-/

namespace MeshCurve.Element

/-- A call that leads from one element to others. -/
inductive Step (E : Type) where
  | parent
  | child (i : Nat)
  | sibling (i : Nat)
  | ancestor (level : Nat)
  | firstDescendant (level : Nat)
  | lastDescendant (level : Nat)
  | successor (level : Nat)
  | nca (other : E)
  | faceNeighbor (face : Nat)
  | faceNeighborInside (face : Nat)
  | children
  | childrenAtFace (face : Nat)

variable {E : Type}

def single (call : Except Fault E) : Except Fault (List E) := do return [← call]

theorem of_mem_single {call : Except Fault E} {c : E} {cs : List E} (h : single call = .ok cs)
    (hc : c ∈ cs) : call = .ok c := by
  obtain ⟨e, he, h⟩ := bind_eq_ok_iff.mp h
  cases h
  rwa [List.mem_singleton.mp hc]

variable [Element E]

/-- The elements that the call returns for `e`; a neighbour outside the root is none. -/
def Step.results (e : E) : Step E → Except Fault (List E)
  | parent => single (Element.parent e)
  | child i => single (Element.child e i)
  | sibling i => single (Element.sibling e i)
  | ancestor level => single (Element.ancestor e level)
  | firstDescendant level => single (Element.firstDescendant e level)
  | lastDescendant level => single (Element.lastDescendant e level)
  | successor level => single (Element.successor e level)
  | nca other => single (Element.nca e other)
  | faceNeighbor face => do
    let neighbor ← Element.faceNeighbor e face
    return [neighbor.1]
  | faceNeighborInside face => do
    let neighbor ← Element.faceNeighborInside e face
    return (neighbor.map Prod.fst).toList
  | children => Element.children e
  | childrenAtFace face => Element.childrenAtFace e face

/-- What the steps of a walk from `e` return, one after the other.  The number that comes
with a step picks the result to go on from. -/
def returned (e : E) : List (Step E × Nat) → List E
  | [] => []
  | (step, pick) :: rest =>
    match step.results e with
    | .error _ => returned e rest
    | .ok results => results ++ returned (results[pick]?.getD e) rest

variable {a c d e n p : E} {cs : List E} {step : Step E} {f g i l target : Nat}

/-! ## One step -/

section

variable [LawfulWalk E]

theorem kin_of_parent (he : Valid e) (h : parent e = .ok p) : Kin e p := by
  obtain ⟨l, hl⟩ := level_of_parent he h
  exact .of_above (below_of_parent he hl h)

theorem kin_of_sibling (he : Valid e) (h : sibling e i = .ok c) : Kin e c := by
  obtain ⟨l, _, h⟩ := bind_eq_ok_iff.mp h
  obtain ⟨_, h⟩ := of_require_bind h
  obtain ⟨p, up, down⟩ := bind_eq_ok_iff.mp h
  have above := kin_of_parent he up
  exact above.trans (kin_of_child above.valid down)

theorem kin_of_ancestor (he : Valid e) (h : ancestor e target = .ok a) : Kin e a := by
  obtain ⟨l, _, hl⟩ := level_of_valid he
  exact .of_above (below_of_ancestor he hl (le_of_ancestor he hl h) h)

theorem kin_of_lastDescendant (he : Valid e) (h : lastDescendant e target = .ok d) : Kin e d := by
  obtain ⟨l, _, hl⟩ := level_of_valid he
  obtain ⟨_, last⟩ := descends_of_lastDescendant he hl h
  exact .of_below he ⟨_, _, last⟩

variable [Grid E] [LawfulGrid E]

theorem valid_of_faceNeighbor (he : Valid e) (h : faceNeighbor e f = .ok (n, g)) : Valid n :=
  (faceNeighbor_back he (lt_of_faceNeighbor h) h).1

theorem inRoot_of_faceNeighborInside (he : Valid e)
    (h : faceNeighborInside e f = .ok (some (n, g))) : InRoot n := by
  obtain ⟨⟨m, g'⟩, hm, h⟩ := bind_eq_ok_iff.mp h
  obtain ⟨inside, test, h⟩ := bind_eq_ok_iff.mp h
  cases inside with
  | false => cases h
  | true =>
      cases h
      exact ⟨valid_of_faceNeighbor he hm, test⟩

/-- A step that does not cross a face stays in the tree or leads into the root. -/
theorem Step.kin_or_inRoot (he : Valid e) (inner : ∀ f, step ≠ .faceNeighbor f)
    (h : step.results e = .ok cs) (hc : c ∈ cs) : Kin e c ∨ InRoot c := by
  cases step with
  | parent => exact .inl (kin_of_parent he (of_mem_single h hc))
  | child i => exact .inl (kin_of_child he (of_mem_single h hc))
  | sibling i => exact .inl (kin_of_sibling he (of_mem_single h hc))
  | ancestor level => exact .inl (kin_of_ancestor he (of_mem_single h hc))
  | firstDescendant level =>
      have first := of_mem_single h hc
      obtain ⟨l, _, hl⟩ := level_of_valid he
      exact .inl (kin_of_firstDescendant he hl (bounds_of_firstDescendant he hl first) first)
  | lastDescendant level => exact .inl (kin_of_lastDescendant he (of_mem_single h hc))
  | successor level => exact successor_of_valid he (of_mem_single h hc)
  | nca other => exact .inl (.of_above (nca_of_valid he (of_mem_single h hc)))
  | faceNeighbor f => exact absurd rfl (inner f)
  | faceNeighborInside f =>
      obtain ⟨neighbor, cross, h⟩ := bind_eq_ok_iff.mp h
      cases h
      obtain ⟨⟨n, g⟩, rfl, rfl⟩ := Option.map_eq_some_iff.mp (Option.mem_toList.mp hc)
      exact .inr (inRoot_of_faceNeighborInside he cross)
  | children =>
      obtain ⟨i, hi⟩ := exists_child_of_mem_children h hc
      exact .inl (kin_of_child he hi)
  | childrenAtFace f =>
      obtain ⟨i, hi⟩ := child_of_childrenAtFace he h hc
      exact .inl (kin_of_child he hi)

theorem Step.valid (he : Valid e) (h : step.results e = .ok cs) (hc : c ∈ cs) : Valid c := by
  by_cases crosses : ∃ f, step = .faceNeighbor f
  · obtain ⟨f, rfl⟩ := crosses
    obtain ⟨⟨n, g⟩, cross, h⟩ := bind_eq_ok_iff.mp h
    cases h
    rw [List.mem_singleton.mp hc]
    exact valid_of_faceNeighbor he cross
  · rcases Step.kin_or_inRoot he (fun f hf => crosses ⟨f, hf⟩) h hc with kin | inside
    · exact kin.valid
    · exact inside.1

theorem Step.inRoot (he : InRoot e) (inner : ∀ f, step ≠ .faceNeighbor f)
    (h : step.results e = .ok cs) (hc : c ∈ cs) : InRoot c := by
  rcases Step.kin_or_inRoot he.1 inner h hc with kin | inside
  · exact kin.inRoot he
  · exact inside

end

/-! ## All steps -/

/-- What every step of a walk keeps holds of all that the walk returns. -/
theorem forall_returned {P : E → Prop} {steps : List (Step E × Nat)}
    (keeps : ∀ x ∈ steps, ∀ e cs, P e → x.1.results e = .ok cs → ∀ c ∈ cs, P c) (he : P e) :
    ∀ d ∈ returned e steps, P d := by
  induction steps generalizing e with
  | nil => simp [returned]
  | cons x rest ih =>
      obtain ⟨step, pick⟩ := x
      have later {e : E} (he : P e) : ∀ d ∈ returned e rest, P d :=
        ih (fun y hy => keeps y (List.mem_cons_of_mem _ hy)) he
      rw [returned]
      cases result : step.results e with
      | error fault => exact later he
      | ok cs =>
          have each := keeps _ List.mem_cons_self e cs he result
          have picked : P (cs[pick]?.getD e) := by
            cases at' : cs[pick]? with
            | none => exact he
            | some c => exact each c (List.mem_of_getElem? at')
          intro d hd
          rcases List.mem_append.mp hd with hd | hd
          · exact each d hd
          · exact later picked d hd

end MeshCurve.Element

namespace MeshCurve

open Element

instance instLawfulWalkCarrier : (s : Shape) → LawfulWalk s.Carrier
  | .line => inferInstanceAs (LawfulWalk Line)
  | .quad => inferInstanceAs (LawfulWalk Quad)
  | .triangle => inferInstanceAs (LawfulWalk Triangle)
  | .tet => inferInstanceAs (LawfulWalk Tet)
  | .prism => inferInstanceAs (LawfulWalk Prism)

/-- A walk from a valid element returns valid elements, whatever calls it makes.  If it
starts in the root and crosses no face, it stays there, where elements have ids. -/
theorem walk_keeps_valid (s : Shape) {start : s.Carrier} (valid : Valid start)
    (steps : List (Step s.Carrier × Nat)) :
    (∀ d ∈ returned start steps, Valid d) ∧
      (InRoot start → (∀ f pick, (.faceNeighbor f, pick) ∉ steps) →
        ∀ d ∈ returned start steps, InRoot d ∧ ∃ l id, level d = .ok l ∧
          linearId d l = .ok id ∧ id < s.numChildren ^ l) := by
  constructor
  · exact forall_returned (fun _ _ _ _ he h _ hc => Step.valid he h hc) valid
  · intro inside inner d hd
    have inRoot : InRoot d := by
      refine forall_returned ?_ inside d hd
      rintro ⟨step, pick⟩ member e cs he h c hc
      refine Step.inRoot he ?_ h hc
      rintro f rfl
      exact inner f pick member
    obtain ⟨l, i, below⟩ := inRoot_iff.mp inRoot
    refine ⟨inRoot, l, i, below.level_of_root, ?_, branching_carrier s ▸ below.lt⟩
    rw [linearId_of_descends below below.le_finest, idAt_self]

/-- Up, along the curve, down and across a face, outside the root; the call for a common
ancestor with the root has no value there. -/
def outerWalk : List (Step Tet × Nat) :=
  [(.parent, 0), (.successor 2, 0), (.nca root, 0), (.lastDescendant 3, 0), (.faceNeighbor 0, 0)]

def outerEnd : Tet := ⟨0x7fe80000, -0x140000, 0x40000, 4, 3⟩

def innerWalk : List (Step Tet × Nat) :=
  [(.child 7, 0), (.successor 1, 0), (.lastDescendant 3, 0), (.childrenAtFace 2, 1)]

def innerEnd : Tet := ⟨0x1e0000, 0x1c0000, 0x1c0000, 0, 4⟩

theorem walk_keeps_valid_tet :
    Valid outerTet ∧ outerEnd ∈ returned outerTet outerWalk ∧ Valid outerEnd ∧
      Valid (root : Tet) ∧ InRoot (root : Tet) ∧ (∀ f pick, (.faceNeighbor f, pick) ∉ innerWalk) ∧
      innerEnd ∈ returned root innerWalk ∧ InRoot innerEnd ∧
      ∃ l id, level innerEnd = .ok l ∧ linearId innerEnd l = .ok id ∧
        id < Shape.numChildren .tet ^ l := by
  have outer : Valid outerTet := by decide
  have passed : outerEnd ∈ returned outerTet outerWalk := by decide +kernel
  have valid : Valid (root : Tet) := by decide
  have inside : InRoot (root : Tet) := ⟨valid, by rfl⟩
  have inner : ∀ f pick, (.faceNeighbor f, pick) ∉ innerWalk := by simp [innerWalk]
  have reached : innerEnd ∈ returned root innerWalk := by decide +kernel
  obtain ⟨stays, _⟩ := walk_keeps_valid .tet outer outerWalk
  obtain ⟨_, ids⟩ := walk_keeps_valid .tet valid innerWalk
  exact ⟨outer, passed, stays _ passed, valid, inside, inner, reached, ids inside inner _ reached⟩

end MeshCurve
