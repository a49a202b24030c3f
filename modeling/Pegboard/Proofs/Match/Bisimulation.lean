import Mathlib.Data.List.Forall2
import Pegboard.Proofs.Match.Derivation

/-!
# Graphs that match alike

Two graphs match alike at related expressions if the relation is a bisimulation: related
expressions have the same name and the same kind, literal, pattern or bound, and their
members are related one by one.  Sharing, order in the store and frozen members do not
matter.

Nodes carry the number of the expression they came from, which is the one thing that
differs.  `Node.bare` leaves it out, and `matchAt_bisim` says that the two matches agree
at every depth once it is left out: the same node, or nothing, or the same error.
-/

namespace Pegboard

namespace Node

mutual

/-- The tree without the numbers of the expressions that it came from. -/
def bare : Node → Node
  | ⟨_, kind, name, full, start, stop, children⟩ =>
    ⟨0, kind, name, full, start, stop, bareAll children⟩

/-- The trees without the numbers of the expressions that they came from. -/
def bareAll : List Node → List Node
  | [] => []
  | n :: rest => n.bare :: bareAll rest

end

@[simp] theorem bare_stop (n : Node) : n.bare.stop = n.stop := by
  cases n
  simp [bare]

theorem bareAll_eq_map : ∀ nodes : List Node, bareAll nodes = nodes.map bare
  | [] => by simp [bareAll]
  | n :: rest => by simp [bareAll, bareAll_eq_map rest]

mutual

/-- Trees that differ in those numbers only are alike. -/
theorem same_of_bare_eq : ∀ {a b : Node}, a.bare = b.bare → a.same b = true
  | ⟨_, _, _, _, _, _, children₁⟩, ⟨_, _, _, _, _, _, children₂⟩, h => by
    simp only [bare, mk.injEq, true_and] at h
    obtain ⟨rfl, rfl, rfl, rfl, rfl, h⟩ := h
    simp [same, sameAll_of_bareAll_eq h]

theorem sameAll_of_bareAll_eq : ∀ {as bs : List Node}, bareAll as = bareAll bs →
    sameAll as bs = true
  | [], [], _ => by simp [sameAll]
  | [], _ :: _, h => by simp [bareAll] at h
  | _ :: _, [], h => by simp [bareAll] at h
  | a :: as, b :: bs, h => by
    simp only [bareAll, List.cons.injEq] at h
    simp [sameAll, same_of_bare_eq h.1, sameAll_of_bareAll_eq h.2]

end

end Node

/-- Two forms are alike over a relation between their members.  Whether members are
frozen does not matter. -/
inductive Form.Alike (R : ExprId → ExprId → Prop) : Form → Form → Prop where
  | literal (text : Text) : Alike R (.literal text) (.literal text)
  | regex (pattern : Regex.Pattern) : Alike R (.regex pattern) (.regex pattern)
  | compound (order : Order) {members members' : List ExprId} (frozen frozen' : Bool) :
    List.Forall₂ R members members' →
    Alike R (.compound order members frozen) (.compound order members' frozen')
  | unary (wrap : Wrap) {member member' : ExprId} :
    R member member' → Alike R (.unary wrap member) (.unary wrap member')

theorem Form.Alike.kind_eq {R : ExprId → ExprId → Prop} {f f' : Form} (h : Form.Alike R f f') :
    f.kind = f'.kind := by
  cases h <;> rfl

theorem Form.Alike.members {R : ExprId → ExprId → Prop} {f f' : Form} (h : Form.Alike R f f') :
    List.Forall₂ R f.members f'.members := by
  cases h with
  | literal | regex => exact .nil
  | compound order frozen frozen' hmembers => exact hmembers
  | unary wrap hmember => exact .cons hmember .nil

theorem Form.Alike.flip {R : ExprId → ExprId → Prop} {f f' : Form} (h : Form.Alike R f f') :
    Form.Alike (flip R) f' f := by
  cases h with
  | literal text => exact .literal text
  | regex pattern => exact .regex pattern
  | compound order frozen frozen' hmembers => exact .compound order frozen' frozen hmembers.flip
  | unary wrap hmember => exact .unary wrap hmember

namespace Store

/-- A relation between the expressions of two stores under which related expressions
have the same name and alike forms. -/
def Bisimulation (store store' : Store) (R : ExprId → ExprId → Prop) : Prop :=
  ∀ e e', R e e' → ∃ cell cell', store[e]? = some cell ∧ store'[e']? = some cell' ∧
    cell.name = cell'.name ∧ Form.Alike R cell.form cell'.form

theorem Bisimulation.flip {store store' : Store} {R : ExprId → ExprId → Prop}
    (hR : Bisimulation store store' R) : Bisimulation store' store (flip R) := by
  intro e' e he
  obtain ⟨cell, cell', hcell, hcell', hname, halike⟩ := hR e e' he
  exact ⟨cell', cell, hcell', hcell, hname.symm, halike.flip⟩

/-- An outcome without the numbers of the expressions that its node came from. -/
def bareOutcome (o : Outcome) : Outcome := o.map (Option.map Node.bare)

theorem chainStop_bareAll (pos : Int) (nodes : List Node) :
    chainStop pos (Node.bareAll nodes) = chainStop pos nodes := by
  rw [Node.bareAll_eq_map]
  simp only [chainStop, List.getLast?_map, Option.map_map]
  congr 2
  funext n
  exact Node.bare_stop n

section Lockstep

variable {R : ExprId → ExprId → Prop} {step step' : ExprId → Int → Outcome}
  (hstep : ∀ e e', R e e' → ∀ pos, bareOutcome (step e pos) = bareOutcome (step' e' pos))
include hstep

/-- Where one of two related members gives a node, the other one gives a node that is
the same once bare. -/
theorem lockstep_cases {e e' : ExprId} (h : R e e') (pos : Int) :
    (∃ err, step e pos = .error err ∧ step' e' pos = .error err) ∨
    (step e pos = .ok none ∧ step' e' pos = .ok none) ∨
    ∃ node node', step e pos = .ok (some node) ∧ step' e' pos = .ok (some node') ∧
      node.bare = node'.bare := by
  have hout := hstep e e' h pos
  rcases hs : step e pos with err | _ | node <;> rcases hs' : step' e' pos with err' | _ | node' <;>
    simp [bareOutcome, Except.map, hs, hs'] at hout
  · exact .inl ⟨err, rfl, by rw [hout]⟩
  · exact .inr (.inl ⟨rfl, rfl⟩)
  · exact .inr (.inr ⟨node, node', rfl, rfl, hout⟩)

theorem matchAll_lockstep {members members' : List ExprId} (h : List.Forall₂ R members members') :
    ∀ pos, (matchAll step members pos).map (Option.map fun r => (Node.bareAll r.1, r.2)) =
      (matchAll step' members' pos).map (Option.map fun r => (Node.bareAll r.1, r.2)) := by
  induction h with
  | nil =>
    intro pos
    rfl
  | @cons e e' rest rest' he _ ih =>
    intro pos
    simp only [matchAll]
    rcases lockstep_cases hstep he pos with ⟨err, h, h'⟩ | ⟨h, h'⟩ | ⟨node, node', h, h', hbare⟩ <;>
      rw [h, h']
    dsimp only
    have hstop : node.stop = node'.stop := by
      rw [← Node.bare_stop node, hbare, Node.bare_stop]
    have hrest := ih node.stop
    rw [hstop] at hrest ⊢
    rcases hm : matchAll step rest node'.stop with err | _ | ⟨nodes, stop⟩ <;>
      rcases hm' : matchAll step' rest' node'.stop with err' | _ | ⟨nodes', stop'⟩ <;>
      simp_all [Except.map, Node.bareAll]

theorem matchFirst_lockstep {members members' : List ExprId}
    (h : List.Forall₂ R members members') :
    ∀ pos, bareOutcome (matchFirst step members pos) =
      bareOutcome (matchFirst step' members' pos) := by
  induction h with
  | nil =>
    intro pos
    rfl
  | @cons e e' rest rest' he _ ih =>
    intro pos
    simp only [matchFirst]
    rcases lockstep_cases hstep he pos with ⟨err, h, h'⟩ | ⟨h, h'⟩ | ⟨node, node', h, h', hbare⟩ <;>
      rw [h, h']
    · exact ih pos
    · simp [bareOutcome, Except.map, hbare]

theorem matchRepeat_lockstep {e e' : ExprId} (he : R e e') : ∀ rounds pos,
    (matchRepeat (step e) rounds pos).map Node.bareAll =
      (matchRepeat (step' e') rounds pos).map Node.bareAll
  | 0, _ => rfl
  | rounds + 1, pos => by
    simp only [matchRepeat]
    rcases lockstep_cases hstep he pos with ⟨err, h, h'⟩ | ⟨h, h'⟩ | ⟨node, node', h, h', hbare⟩ <;>
      rw [h, h']
    dsimp only
    have hstop : node.stop = node'.stop := by
      rw [← Node.bare_stop node, hbare, Node.bare_stop]
    have hrest := matchRepeat_lockstep he rounds node'.stop
    rw [hstop]
    split
    · rfl
    · rcases hm : matchRepeat (step e) rounds node'.stop with err | nodes <;>
        rcases hm' : matchRepeat (step' e') rounds node'.stop with err' | nodes' <;>
        simp_all [Except.map, Node.bareAll]

theorem matchForm_lockstep [Platform] (text : Text) (pos : Int) {form form' : Form}
    (h : Form.Alike R form form') :
    (matchForm text step pos form).map (Option.map fun o => (o.1, Node.bareAll o.2)) =
      (matchForm text step' pos form').map (Option.map fun o => (o.1, Node.bareAll o.2)) := by
  cases h with
  | literal piece => rfl
  | regex pattern => rfl
  | compound order frozen frozen' hmembers =>
    cases order with
    | sequence =>
      have hall := matchAll_lockstep hstep hmembers pos
      simp only [matchForm]
      rcases hm : matchAll step _ pos with err | _ | ⟨nodes, stop⟩ <;>
        rcases hm' : matchAll step' _ pos with err' | _ | ⟨nodes', stop'⟩ <;>
        simp_all [Except.map]
    | choice =>
      have hfirst := matchFirst_lockstep hstep hmembers pos
      simp only [matchForm]
      rcases hm : matchFirst step _ pos with err | _ | node <;>
        rcases hm' : matchFirst step' _ pos with err' | _ | node' <;>
        simp_all [bareOutcome, Except.map, Node.bareAll]
      rw [← Node.bare_stop node, hfirst, Node.bare_stop]
  | unary wrap hmember =>
    have hrounds := matchRepeat_lockstep hstep hmember (roundsFrom text pos) pos
    cases wrap with
    | lookahead =>
      rcases lockstep_cases hstep hmember pos with
        ⟨err, h, h'⟩ | ⟨h, h'⟩ | ⟨node, node', h, h', hbare⟩ <;>
        simp [matchForm, h, h', Except.map]
    | negation =>
      rcases lockstep_cases hstep hmember pos with
        ⟨err, h, h'⟩ | ⟨h, h'⟩ | ⟨node, node', h, h', hbare⟩ <;>
        simp [matchForm, h, h', Except.map]
    | optional =>
      rcases lockstep_cases hstep hmember pos with
        ⟨err, h, h'⟩ | ⟨h, h'⟩ | ⟨node, node', h, h', hbare⟩ <;>
        simp [matchForm, h, h', Except.map, Node.bareAll]
      exact ⟨by rw [← Node.bare_stop node, hbare, Node.bare_stop], hbare⟩
    | star =>
      simp only [matchForm]
      rcases hm : matchRepeat (step _) _ pos with err | nodes <;>
        rcases hm' : matchRepeat (step' _) _ pos with err' | nodes' <;>
        simp_all [Except.map]
      rw [← chainStop_bareAll, hrounds, chainStop_bareAll]
    | plus least =>
      simp only [matchForm]
      rcases hm : matchRepeat (step _) _ pos with err | nodes <;>
        rcases hm' : matchRepeat (step' _) _ pos with err' | nodes' <;>
        simp_all [Except.map]
      have hlength : nodes.length = nodes'.length := by
        have := congrArg List.length hrounds
        simpa [Node.bareAll_eq_map] using this
      rw [hlength]
      split
      · rfl
      · simp only [Option.map_some, hrounds]
        rw [← chainStop_bareAll, hrounds, chainStop_bareAll]

end Lockstep

/-- Related expressions of a bisimulation match alike at every depth. -/
theorem matchAt_bisim [Platform] {store store' : Store} {R : ExprId → ExprId → Prop}
    (hR : Bisimulation store store' R) (text : Text) : ∀ (depth : Nat) (e e' : ExprId), R e e' →
    ∀ pos, bareOutcome (store.matchAt text depth e pos) =
      bareOutcome (store'.matchAt text depth e' pos)
  | 0, _, _, _, _ => rfl
  | depth + 1, e, e', he, pos => by
    obtain ⟨cell, cell', hc, hc', hname, halike⟩ := hR e e' he
    have hform := matchForm_lockstep (matchAt_bisim hR text depth) text pos halike
    have hkind : cell.kind = cell'.kind := halike.kind_eq
    rw [matchAt_succ hc, matchAt_succ hc']
    rcases hm : matchForm text (store.matchAt text depth) pos cell.form with err | _ | o <;>
      rcases hm' : matchForm text (store'.matchAt text depth) pos cell'.form with
        err' | _ | o' <;>
      simp_all [bareOutcome, Except.map, nodeOf, Node.bare]

end Store

end Pegboard
