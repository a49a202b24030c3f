import Pegboard.Proofs.Expr.Frozen
import Pegboard.Proofs.Grammar.Isomorphism
import Pegboard.Proofs.Match.Closed
import Pegboard.Regex.Engine

/-!
# Matching depends on the unfolding

A graph with shared parts and cycles unfolds to a tree, which may be infinite.  The tree is
given by what stands at the end of each path of slots (`Store.unfolding`): the face of an
expression, which is its name and its form without the expressions that it holds and
without whether its member list is closed.

Having the same unfolding is a bisimulation, if no reference can be reached, and every
bisimulation relates expressions with the same unfolding (`exists_bisimulation_iff`).  So a
match, which is the same up to a bisimulation, depends on the unfolding and on nothing else:
parts may be shared or not, and frozen or not (`matchAt_unfolding`).
-/

namespace Pegboard

/-! ## Faces -/

/-- A form with nothing in its slots and with its member list closed. -/
def Form.face : Form → Form
  | .compound order members _ => .compound order (List.replicate members.length 0) true
  | .unary wrap _ => .unary wrap 0
  | form => form

/-- What an expression shows of itself, without what it holds. -/
def Cell.face (cell : Cell) : Cell := { cell with form := cell.form.face }

namespace Form

variable {R : ExprId → ExprId → Prop} {form form' : Form}

theorem Alike.face_eq (h : Alike R form form') : form.face = form'.face := by
  cases h with
  | literal | regex | unary => rfl
  | compound order frozen frozen' hmembers => rw [face, face, hmembers.length_eq]

theorem Alike.finished (h : Alike R form form') : form.Finished := by
  cases h <;> trivial

theorem length_members_of_face_eq (h : form.face = form'.face) :
    form.members.length = form'.members.length := by
  cases form <;> cases form' <;> simp_all [face, members]

/-- Finished forms with the same face are alike over whatever relates their members. -/
theorem alike_of_face_eq (h : form.face = form'.face) (hfinished : form.Finished)
    (hmembers : List.Forall₂ R form.members form'.members) : Alike R form form' := by
  cases form with
  | literal text =>
    cases form' <;> cases h
    exact .literal text
  | regex pattern =>
    cases form' <;> cases h
    exact .regex pattern
  | compound order slots frozen =>
    cases form' with
    | compound order' slots' frozen' =>
      obtain ⟨rfl, -⟩ := compound.inj h
      exact .compound order frozen frozen' hmembers
    | _ => cases h
  | unary wrap member =>
    cases form' with
    | unary wrap' member' =>
      obtain ⟨rfl, -⟩ := unary.inj h
      exact .unary wrap (List.forall₂_cons.1 hmembers).1
    | _ => cases h
  | reference target place => exact absurd hfinished id
  | unknown => exact absurd hfinished id

end Form

namespace Store

/-! ## Unfoldings -/

/-- The tree that an expression unfolds to: the face of what stands at the end of each path of
slots. -/
def unfolding (store : Store) : ExprId → List Nat → Option Cell
  | e, [] => store[e]?.map Cell.face
  | e, slot :: path => (store.membersOf e)[slot]?.bind fun m => store.unfolding m path

/-- All that can be reached from the expression is in the store and finished. -/
def ReferenceFree (store : Store) (e : ExprId) : Prop :=
  ∀ m, Reach store.membersOf [e] m → ∃ cell, store[m]? = some cell ∧ cell.form.Finished

theorem ReferenceFree.member {store : Store} {e m : ExprId} (h : store.ReferenceFree e)
    (hm : m ∈ store.membersOf e) : store.ReferenceFree m := by
  intro x hx
  refine h x (hx.trans fun r hr => ?_)
  rw [List.mem_singleton.1 hr]
  exact .member (.root (List.mem_singleton_self e)) hm

theorem ReferenceFree.closed {store : Store} {e : ExprId} (h : store.ReferenceFree e) :
    store.Closed (Reach store.membersOf [e]) := by
  intro m hm
  obtain ⟨cell, hcell, hfinished⟩ := h m hm
  exact ⟨cell, hcell, hfinished, fun x hx => .member hm (by rwa [membersOf_eq hcell])⟩

section Bisimilar

variable {store store' : Store} {R : ExprId → ExprId → Prop}

/-- Slots of related member lists are both there and related, or both missing. -/
theorem getElem?_related {members members' : List ExprId} (h : List.Forall₂ R members members') (i : Nat) :
    (members[i]? = none ∧ members'[i]? = none) ∨
      ∃ m m', members[i]? = some m ∧ members'[i]? = some m' ∧ R m m' := by
  induction h generalizing i with
  | nil => exact .inl ⟨rfl, rfl⟩
  | @cons m m' _ _ hm _ ih =>
    cases i with
    | zero => exact .inr ⟨m, m', rfl, rfl, hm⟩
    | succ i => exact ih i

/-- Related expressions have the same unfolding. -/
theorem Bisimulation.unfolding_eq (hR : Bisimulation store store' R) : ∀ (path : List Nat) {e e' : ExprId},
    R e e' → store.unfolding e path = store'.unfolding e' path
  | [], e, e', he => by
    obtain ⟨cell, cell', hcell, hcell', hname, halike⟩ := hR e e' he
    rw [unfolding, unfolding, hcell, hcell', Option.map_some, Option.map_some, Cell.face, Cell.face, hname,
      halike.face_eq]
  | slot :: path, e, e', he => by
    obtain ⟨cell, cell', hcell, hcell', -, halike⟩ := hR e e' he
    rw [unfolding, unfolding, membersOf_eq hcell, membersOf_eq hcell']
    rcases getElem?_related halike.members slot with ⟨hm, hm'⟩ | ⟨m, m', hm, hm', hrelated⟩
    · rw [Cell.members, Cell.members, hm, hm']
      rfl
    · rw [Cell.members, Cell.members, hm, hm']
      exact hR.unfolding_eq path hrelated

/-- Nothing that is related reaches a reference. -/
theorem Bisimulation.referenceFree (hR : Bisimulation store store' R) {e e' : ExprId} (he : R e e') :
    store.ReferenceFree e := by
  intro m hm
  obtain ⟨m', -, hrelated⟩ := hR.exists_reach he hm
  obtain ⟨cell, cell', hcell, -, -, halike⟩ := hR m m' hrelated
  exact ⟨cell, hcell, halike.finished⟩

/-- Having the same unfolding is a bisimulation where no reference can be reached. -/
theorem bisimulation_unfolding (store store' : Store) : Bisimulation store store' fun e e' =>
    store.ReferenceFree e ∧ store.unfolding e = store'.unfolding e' := by
  rintro e e' ⟨hfree, hunfolding⟩
  obtain ⟨cell, hcell, hfinished⟩ := hfree e (.root (List.mem_singleton_self e))
  have hface := congrFun hunfolding []
  rw [unfolding, unfolding, hcell, Option.map_some] at hface
  obtain ⟨cell', hcell', hface⟩ := Option.map_eq_some_iff.1 hface.symm
  have hform : cell.form.face = cell'.form.face := (congrArg Cell.form hface).symm
  refine ⟨cell, cell', hcell, hcell', (congrArg Cell.name hface).symm,
    Form.alike_of_face_eq hform hfinished ?_⟩
  refine List.forall₂_iff_get.2 ⟨Form.length_members_of_face_eq hform, fun i h h' => ?_⟩
  have hmember : cell.form.members.get ⟨i, h⟩ ∈ store.membersOf e := by
    rw [membersOf_eq hcell]
    exact List.get_mem _ _
  refine ⟨hfree.member hmember, funext fun path => ?_⟩
  -- The unfolding of a member is what stands behind its slot.
  have hslot := congrFun hunfolding (i :: path)
  rw [unfolding, unfolding, membersOf_eq hcell, membersOf_eq hcell', Cell.members, Cell.members,
    List.getElem?_eq_getElem h, List.getElem?_eq_getElem h'] at hslot
  exact hslot

/-- Two expressions are related by a bisimulation exactly if no reference can be reached and
they have the same unfolding. -/
theorem exists_bisimulation_iff {e e' : ExprId} : (∃ R, Bisimulation store store' R ∧ R e e') ↔
    store.ReferenceFree e ∧ store.unfolding e = store'.unfolding e' := by
  constructor
  · rintro ⟨R, hR, he⟩
    exact ⟨hR.referenceFree he, funext fun path => hR.unfolding_eq path he⟩
  · intro h
    exact ⟨_, bisimulation_unfolding store store', h⟩

end Bisimilar

/-! ## Freezing and matching -/

theorem matchForm_freeze [Platform] (text : Text) (step : ExprId → Int → Outcome) (pos : Int)
    (cell : Cell) :
    matchForm text step pos cell.freeze.form = matchForm text step pos cell.form := by
  obtain ⟨name, form⟩ := cell
  cases form with
  | compound order members frozen => cases order <;> rfl
  | _ => rfl

theorem nodeOf_freeze (text : Text) (e : ExprId) (cell : Cell) (pos : Int) :
    nodeOf text e cell.freeze pos = nodeOf text e cell pos := by
  obtain ⟨name, form⟩ := cell
  cases form <;> rfl

/-- Stores that differ in closed member lists only match in the same way. -/
theorem matchAt_of_freeze_eq [Platform] {store store' : Store}
    (h : ∀ e : ExprId, store'[e]?.map Cell.freeze = store[e]?.map Cell.freeze) (text : Text) :
    ∀ depth, store'.matchAt text depth = store.matchAt text depth
  | 0 => rfl
  | depth + 1 => by
    have hbelow := matchAt_of_freeze_eq h text depth
    funext e pos
    have he := h e
    rcases hcell : store[e]? with _ | cell
    · rw [hcell, Option.map_none, Option.map_eq_none_iff] at he
      rw [matchAt_none hcell, matchAt_none he]
    · rw [hcell, Option.map_some] at he
      obtain ⟨cell', hcell', hfreeze⟩ := Option.map_eq_some_iff.1 he
      rw [matchAt_succ hcell, matchAt_succ hcell', hbelow, ← matchForm_freeze, ← nodeOf_freeze, hfreeze,
        matchForm_freeze, nodeOf_freeze]

theorem map_freeze_freeze (store : Store) (roots : List ExprId) (e : ExprId) :
    ((Build.freeze roots).runOn store).2[e]?.map Cell.freeze = store[e]?.map Cell.freeze := by
  rcases Build.freeze_cells store roots e with hsame | ⟨-, name, order, members, hopen, hclosed⟩
  · rw [hsame]
  · rw [hopen, hclosed]
    rfl

/-! ## The unfolding decides -/

/-- Matching depends on the unfolding only.  Expressions that a bisimulation relates give, at
every depth, alike nodes with the same spans all over, or no match in both, or they both
nest too deep.  They are related by one exactly if they have the same unfolding and no
reference in it.  Freezing does not change a match at all. -/
theorem matchAt_unfolding [Platform] (store store' : Store) (e e' : ExprId) (text : Text)
    (depth : Nat) (pos : Int) :
    (∀ R, Bisimulation store store' R → R e e' →
      Agree (store.matchAt text depth e pos) (store'.matchAt text depth e' pos) ∧
      ∀ err, store.matchAt text depth e pos = .error err → err = .tooDeep) ∧
    ((∃ R, Bisimulation store store' R ∧ R e e') ↔
      store.ReferenceFree e ∧ store.unfolding e = store'.unfolding e') ∧
    ∀ roots, ((Build.freeze roots).runOn store).2.matchAt text depth e pos =
      store.matchAt text depth e pos := by
  refine ⟨fun R hR he => ⟨?_, fun err => ?_⟩, exists_bisimulation_iff, fun roots => ?_⟩
  · exact agree_of_bareOutcome_eq (matchAt_bisim hR text depth e e' he pos)
  · exact matchAt_closed (hR.referenceFree he).closed depth e (.root (List.mem_singleton_self e)) pos err
  · rw [matchAt_of_freeze_eq (map_freeze_freeze store roots)]

/-- The first rule of the knot with one round of it unrolled and with open member lists. -/
def slackKnot : Store :=
  #[⟨[], .literal ['(']⟩, ⟨[], .literal [')']⟩, ⟨[], .compound .sequence [0, 7, 1] false⟩,
    ⟨[], .literal ['0']⟩, ⟨['a'], .compound .choice [2, 3] false⟩, ⟨[], .literal ['(']⟩,
    ⟨[], .compound .sequence [5, 4, 1] false⟩, ⟨['a'], .compound .choice [6, 3] true⟩]

/-- The expressions of the knot with those of the slack knot that they became. -/
def slackened : List (ExprId × ExprId) := [(0, 0), (1, 1), (2, 2), (3, 3), (4, 4), (0, 5), (2, 6), (4, 7)]

theorem bisimulation_slackKnot : Bisimulation knot slackKnot fun e e' => (e, e') ∈ slackened := by
  intro e e' h
  simp only [slackened, List.mem_cons, List.not_mem_nil, or_false, Prod.mk.injEq] at h
  rcases h with ⟨rfl, rfl⟩ | ⟨rfl, rfl⟩ | ⟨rfl, rfl⟩ | ⟨rfl, rfl⟩ | ⟨rfl, rfl⟩ | ⟨rfl, rfl⟩ | ⟨rfl, rfl⟩ |
    ⟨rfl, rfl⟩
  · exact ⟨_, _, rfl, rfl, rfl, .literal _⟩
  · exact ⟨_, _, rfl, rfl, rfl, .literal _⟩
  · exact ⟨_, _, rfl, rfl, rfl, .compound _ _ _ (by decide)⟩
  · exact ⟨_, _, rfl, rfl, rfl, .literal _⟩
  · exact ⟨_, _, rfl, rfl, rfl, .compound _ _ _ (by decide)⟩
  · exact ⟨_, _, rfl, rfl, rfl, .literal _⟩
  · exact ⟨_, _, rfl, rfl, rfl, .compound _ _ _ (by decide)⟩
  · exact ⟨_, _, rfl, rfl, rfl, .compound _ _ _ (by decide)⟩

attribute [local instance] Platform.builtIn

/-- The knot and the slack knot have the same unfolding, and take a nested text alike. -/
theorem matchAt_unfolding_slackKnot : knot.unfolding 4 = slackKnot.unfolding 7 ∧
    ∃ node node', knot.matchAt "((0))".toText 9 4 0 = .ok (some node) ∧
      slackKnot.matchAt "((0))".toText 9 7 0 = .ok (some node') ∧ node.same node' = true ∧
      node'.stop = 5 := by
  have hpair : ((4, 7) : ExprId × ExprId) ∈ slackened := by decide
  obtain ⟨hagree, hiff, -⟩ := matchAt_unfolding knot slackKnot 4 7 "((0))".toText 9 0
  obtain ⟨hagree, -⟩ := hagree _ bisimulation_slackKnot hpair
  refine ⟨(hiff.1 ⟨_, bisimulation_slackKnot, hpair⟩).2, ?_⟩
  have hmatch : ∃ node, slackKnot.matchAt "((0))".toText 9 7 0 = .ok (some node) ∧ node.stop = 5 :=
    ⟨_, rfl, rfl⟩
  obtain ⟨node', hnode', hstop⟩ := hmatch
  rw [hnode'] at hagree ⊢
  generalize knot.matchAt "((0))".toText 9 4 0 = result at hagree ⊢
  cases hagree with
  | node hsame => exact ⟨_, _, rfl, rfl, hsame, hstop⟩

end Store

end Pegboard
