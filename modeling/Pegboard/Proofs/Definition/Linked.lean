import Mathlib.Order.RelClasses
import Pegboard.Definition.Piece
import Pegboard.Grammar.Render
import Pegboard.Proofs.Definition.Graph
import Pegboard.Regex.Engine

/-!
# The graph of a tree

Whatever tree is read as a definition text, the graph that comes out is in good order
(`Store.Linked`): no reference can be reached in it and every member list is closed, the
rules have their names and no two have the same one, and everything else is nameless and
held by one slot.  A descent that meets no rule ends.

The references of the tree are all there.  `Node.references` lists the labels of the
references that the reader visits, and each of them has got a slot of its own that holds
the rule of that label.

`toPiece_linked` puts this together for every tree.
-/

namespace Pegboard

/-! ## Graphs in good order -/

namespace Store

/-- An expression can be reached from the rules. -/
def Reachable (store : Store) (rules : Rules) (e : ExprId) : Prop :=
  Reach store.membersOf (rules.map (·.2)) e

/-- A slot, given by its expression and its number, holds the rule of a name. -/
def HoldsRule (store : Store) (rules : Rules) (name : Text) (slot : ExprId × Nat) : Prop :=
  store.Reachable rules slot.1 ∧
    ∃ e, rules.lookup name = some e ∧ (store.membersOf slot.1)[slot.2]? = some e

/-- A member that is no rule. -/
def Inner (store : Store) (rules : Rules) (m e : ExprId) : Prop :=
  m ∈ store.membersOf e ∧ m ∉ rules.map (·.2)

/-- The graph of the rules is in good order. -/
structure Linked (store : Store) (rules : Rules) : Prop where
  /-- What can be reached exists, has a known form and is no reference. -/
  resolved : ∀ e, store.Reachable rules e → ∃ cell, store[e]? = some cell ∧ cell.form.Finished
  /-- Every member list that can be reached is closed. -/
  frozen : ∀ e cell, store.Reachable rules e → store[e]? = some cell → cell.isOpen = false
  /-- A rule has its name. -/
  named : ∀ r ∈ rules, store.nameOf r.2 = r.1
  /-- No two rules have the same name. -/
  distinct : (rules.map (·.1)).Nodup
  /-- Only rules have names. -/
  nameless : ∀ e, store.Reachable rules e → e ∉ rules.map (·.2) → store.nameOf e = []
  /-- Everything else is held by exactly one slot. -/
  held : ∀ e, store.Reachable rules e → e ∉ rules.map (·.2) → Phrase.heldIn store.toList e = 1
  /-- A descent that meets no rule ends. -/
  grounded : WellFounded (store.Inner rules)

/-- Every cycle meets a rule. -/
theorem Linked.no_inner_cycle {store : Store} {rules : Rules} (h : store.Linked rules) (e : ExprId) :
    ¬ Relation.TransGen (store.Inner rules) e e :=
  fun hcycle => h.grounded.transGen.asymmetric e e hcycle hcycle

end Store

/-! ## The graph of complete definitions -/

namespace Definition

open Store

variable {ds : List Definition}

theorem getElem?_graph (ds : List Definition) (e : ExprId) :
    (graph ds)[e]? = (cellsFrom (Phrase.linked (ruleOf ds)) true 0 ds)[e]? := by
  rw [graph, List.getElem?_toArray]

theorem mem_roots_of_target (h : Complete ds) {t : Text} (ht : t ∈ targets ds) :
    ruleOf ds t ∈ (rulesFrom 0 ds).map (·.2) :=
  List.mem_map_of_mem (mem_of_lookup (lookup_rulesFrom (h t ht)))

/-- A member in the graph is a rule or comes before what holds it. -/
theorem lt_of_inner (h : Complete ds) {m e : Nat} (hinner : (graph ds).Inner (rulesFrom 0 ds) m e) :
    m < e := by
  obtain ⟨hmem, hrule⟩ := hinner
  rcases hcell : (graph ds)[e]? with _ | cell
  · simp [membersOf, hcell] at hmem
  · rw [membersOf_eq hcell] at hmem
    rw [getElem?_graph] at hcell
    rcases members_cellsFrom hcell m hmem with ⟨t, ht, rfl⟩ | hlt
    · exact absurd (mem_roots_of_target h ht) hrule
    · simpa using hlt

theorem heldIn_pos {cells : List Cell} {q e : ExprId} (h : e ∈ Store.membersOf cells.toArray q) :
    0 < Phrase.heldIn cells e := by
  rcases hcell : cells.toArray[q]? with _ | cell
  · simp [membersOf, hcell] at h
  · rw [membersOf_eq hcell] at h
    rw [List.getElem?_toArray] at hcell
    exact List.count_pos_iff.2 (List.mem_flatMap.2 ⟨cell, List.mem_of_getElem? hcell, h⟩)

/-- The graph of complete definitions with distinct labels is in good order. -/
theorem linked_graph (h : Complete ds) (hlabels : (ds.map label).Nodup) :
    (graph ds).Linked (rulesFrom 0 ds) where
  resolved e he := solid_of_reach h he
  frozen e cell _ hcell := by
    rw [getElem?_graph, ← @map_freeze_cellsFrom _ false, List.getElem?_map] at hcell
    obtain ⟨cell', -, rfl⟩ := Option.map_eq_some_iff.1 hcell
    exact cell'.isOpen_freeze
  named r hr := by
    obtain ⟨cell, hcell, hname, -⟩ := exists_cell_of_mem_rulesFrom (holds_toArray _) r hr
    rw [nameOf, graph, hcell, Option.map_some, Option.getD_some, hname]
  distinct := by rwa [names_rulesFrom]
  nameless e _ hrule := by
    rcases hcell : (graph ds)[e]? with _ | cell
    · simp [nameOf, hcell]
    · rw [nameOf, hcell, Option.map_some, Option.getD_some]
      rw [getElem?_graph] at hcell
      exact name_cellsFrom hcell (by rwa [Nat.zero_add])
  held e he hrule := by
    have hne : ∀ t ∈ targets ds, ruleOf ds t ≠ e :=
      fun t ht heq => hrule (heq ▸ mem_roots_of_target h ht)
    have hle := (@heldIn_cellsFrom (ruleOf ds) true 0 e ds hne).1
    have hpos : 0 < Phrase.heldIn (cellsFrom (Phrase.linked (ruleOf ds)) true 0 ds) e := by
      cases he with
      | root hroot => exact absurd hroot hrule
      | member _ hmem => exact heldIn_pos hmem
    rw [graph, List.toList_toArray]
    exact Nat.le_antisymm hle hpos
  grounded := Subrelation.wf (lt_of_inner h) Nat.lt_wfRel.wf

/-- An expression of the graph that holds something can be reached. -/
theorem reachable_of_members {q m : ExprId} {i : Nat} (h : ((graph ds).membersOf q)[i]? = some m) :
    (graph ds).Reachable (rulesFrom 0 ds) q := by
  rcases hcell : (graph ds)[q]? with _ | cell
  · simp [membersOf, hcell] at h
  · have htarget : cell.target? = none := by
      rw [membersOf_eq hcell] at h
      obtain ⟨name, form⟩ := cell
      cases form with
      | reference target place => cases h
      | _ => rfl
    rw [getElem?_graph] at hcell
    have hreach := reach_of_solid (holds_toArray (cellsFrom (Phrase.linked (ruleOf ds)) true 0 ds))
      (fun r hr => List.mem_map_of_mem hr) q cell hcell htarget
    rwa [Nat.zero_add] at hreach

/-- The slot of a reference holds the rule in the graph. -/
theorem membersOf_graph_seat (h : Complete ds) {e q : ExprId} {i : Nat} (he : e ∈ pendingsFrom 0 ds)
    (hseat : (pendingGraph ds).seat? e = some (q, i)) :
    ((graph ds).membersOf q)[i]? = some ((pendingGraph ds).ruleFor (rulesFrom 0 ds) e) := by
  obtain ⟨q', i', hseat', hslot⟩ := (linkable_pendingGraph h).seated e he
  rw [hseat] at hseat'
  cases hseat'
  rcases hcell : (pendingGraph ds)[q]? with _ | cell
  · simp [membersOf, hcell] at hslot
  · rw [membersOf_eq hcell] at hslot
    have hgraph : (graph ds)[q]? = some (cell.mapSlots ((pendingGraph ds).linkedSlot (rulesFrom 0 ds)
        (pendingsFrom 0 ds) q)).freeze := by
      rw [getElem?_graph, ← @map_freeze_cellsFrom _ false, List.getElem?_map, ← List.getElem?_toArray,
        getElem?_linked h, hcell]
      rfl
    rw [membersOf_eq hgraph, Cell.freeze_members, Cell.mapSlots_members, List.getElem?_mapIdx, hslot,
      Option.map_some, linkedSlot, if_pos ⟨he, hseat⟩]

/-- The references of complete definitions have a slot each, no two the same one, and the
slot holds the rule. -/
theorem slots_graph (h : Complete ds) : ∃ slots : List (ExprId × Nat), slots.Nodup ∧
    List.Forall₂ ((graph ds).HoldsRule (rulesFrom 0 ds)) (targets ds) slots := by
  obtain ⟨slots, hnodup, hslots⟩ := (linkable_pendingGraph h).slots fun e he q i =>
    membersOf_graph_seat h he
  refine ⟨slots, hnodup, ?_⟩
  have htargets : List.Forall₂ (fun target? slot => ∀ target, target? = some target →
      ∀ e, (rulesFrom 0 ds).lookup target = some e → ((graph ds).membersOf slot.1)[slot.2]? = some e)
      ((pendingsFrom 0 ds).map (pendingGraph ds).targetOf?) slots := by
    refine List.forall₂_map_left_iff.2 (hslots.imp fun e slot hslot target htarget rule hrule => ?_)
    rw [hslot.2.2, ruleFor, htarget, Option.bind_some, hrule, Option.getD_some]
  rw [map_targetOf?_pendingsFrom (holds_pendingGraph ds), List.forall₂_map_left_iff] at htargets
  refine ((List.forall₂_and_left _ _).2 ⟨h, htargets⟩).imp fun target slot hslot => ?_
  have hrule := lookup_rulesFrom hslot.1
  have hmember := hslot.2 target rfl _ hrule
  exact ⟨reachable_of_members hmember, _, hrule, hmember⟩

end Definition

/-! ## Rendering ends -/

namespace Store

variable {store : Store} {rules : Rules}

/-- From some depth on, a rendering gives one text. -/
def Settles {α : Type} (render : Nat → Except Error α) : Prop :=
  ∃ least value, ∀ depth ≥ least, render depth = .ok value

theorem Settles.map {α β : Type} {render : Nat → Except Error α} (h : Settles render) (f : α → β) :
    Settles fun depth => (render depth).map f := by
  obtain ⟨least, value, hvalue⟩ := h
  refine ⟨least, f value, fun depth hdepth => ?_⟩
  simp only [hvalue depth hdepth]
  rfl

theorem settles_ok {α : Type} (value : α) : Settles fun _ => .ok value := ⟨0, value, fun _ _ => rfl⟩

/-- A rendering of members settles if each of them does. -/
theorem renderAll_settles {render : Nat → ExprId → Except Error Text} :
    ∀ {es : List ExprId}, (∀ e ∈ es, Settles fun depth => render depth e) →
      Settles fun depth => renderAll (render depth) es
  | [], _ => settles_ok []
  | e :: rest, h => by
    obtain ⟨least, first, hfirst⟩ := h e List.mem_cons_self
    obtain ⟨least', others, hothers⟩ := renderAll_settles fun x hx => h x (List.mem_cons_of_mem e hx)
    refine ⟨max least least', first :: others, fun depth hdepth => ?_⟩
    dsimp only at hfirst hothers ⊢
    rw [renderAll, hfirst depth (by omega), hothers depth (by omega)]
    rfl

/-- The text of a member settles if it has a name or the text of its right-hand side does. -/
theorem memberText_settles {m : ExprId} {inQuantifier : Bool} {cell : Cell}
    (hcell : store[m]? = some cell)
    (h : cell.name = [] → Settles fun depth => store.renderAt depth m) :
    Settles fun depth => store.memberText (store.renderAt depth) inQuantifier m := by
  simp only [memberText, hcell]
  by_cases hname : cell.name = []
  · simp only [hname, List.isEmpty_nil, if_true]
    exact (h hname).map _
  · simp only [List.isEmpty_iff, hname, if_false]
    exact settles_ok cell.name

theorem Settles.succ {e : ExprId} {render : Nat → Except Error Text} (h : Settles render)
    (hrender : ∀ depth, store.renderAt (depth + 1) e = render depth) :
    Settles fun depth => store.renderAt depth e := by
  obtain ⟨least, text, htext⟩ := h
  refine ⟨least + 1, text, fun depth hdepth => ?_⟩
  obtain ⟨depth, rfl⟩ : ∃ d, depth = d + 1 := ⟨depth - 1, by omega⟩
  exact (hrender depth).trans (htext depth (by omega))

/-- Where every rule has a name that is not empty, the rendering of what can be reached
settles. -/
theorem Linked.renderAt_settles (h : store.Linked rules) (hnames : ∀ r ∈ rules, r.1 ≠ []) :
    ∀ e, store.Reachable rules e → Settles fun depth => store.renderAt depth e := by
  intro e
  induction e using h.grounded.induction with
  | _ e ih =>
    intro hreach
    obtain ⟨⟨name, form⟩, hcell, hform⟩ := h.resolved e hreach
    have hmember : ∀ m ∈ form.members, ∀ inQuantifier,
        Settles fun depth => store.memberText (store.renderAt depth) inQuantifier m := by
      intro m hm inQuantifier
      have hmem : m ∈ store.membersOf e := by rwa [membersOf_eq hcell]
      have hreach' : store.Reachable rules m := .member hreach hmem
      obtain ⟨cell, hcell', -⟩ := h.resolved m hreach'
      refine memberText_settles hcell' fun hname => ih m ⟨hmem, fun hroot => ?_⟩ hreach'
      -- A rule has a name, and this member has none.
      obtain ⟨r, hr, rfl⟩ := List.mem_map.1 hroot
      have hnamed := h.named r hr
      rw [nameOf, hcell', Option.map_some, Option.getD_some, hname] at hnamed
      exact hnames r hr hnamed.symm
    cases form with
    | literal text =>
      refine (settles_ok (Literal.write text)).succ fun depth => ?_
      simp only [renderAt, hcell]
    | regex pattern =>
      refine (settles_ok (Literal.writePattern pattern.source ++ pattern.flags.letters)).succ
        fun depth => ?_
      simp only [renderAt, hcell]
    | compound order members frozen =>
      refine Settles.succ ((renderAll_settles fun m hm => hmember m hm false).map
        (Text.join (separator order))) fun depth => ?_
      simp only [renderAt, hcell, Form.members]
    | unary wrap member =>
      refine Settles.succ ((hmember member (List.mem_singleton_self _) (isQuantifier wrap)).map
        fun text => leading wrap ++ text ++ trailing wrap) fun depth => ?_
      simp only [renderAt, hcell]
    | reference target place => exact absurd hform id
    | unknown => exact absurd hform id

end Store

/-! ## The references of a tree -/

theorem bind_eq_ok {α β : Type} {x : Except Error α} {f : α → Except Error β} {b : β}
    (h : x >>= f = .ok b) : ∃ a, x = .ok a ∧ f a = .ok b := by
  cases x with
  | error e => cases h
  | ok a => exact ⟨a, rfl, h⟩

namespace Node

/-- The label that a label node spells. -/
def labelText (n : Node) : Text := (n.children[0]?.map Node.text).getD []

mutual

/-- The labels of the references that are visited when a node is read as a construct, in
the order of the text. -/
def references (c : Construct) : Node → List Text
  | ⟨_, _, _, _, _, _, children⟩ =>
    match c with
    | .expression | .alternative | .term | .atom =>
      match children with
      | [] => []
      | child :: _ =>
        match c.option? child.name with
        | none => []
        | some o => child.references o
    | .ored =>
      match children with
      | child :: ⟨_, _, _, _, _, _, others⟩ :: _ =>
        child.references .alternative ++ referencesAll .orTerm others
      | _ => []
    | .sequence =>
      match children with
      | child :: ⟨_, _, _, _, _, _, others⟩ :: _ =>
        child.references .term ++ referencesAll .term others
      | _ => []
    | .orTerm =>
      match children with
      | _ :: _ :: child :: _ => child.references .alternative
      | _ => []
    | .notTerm | .lookaheadTerm =>
      match children with
      | _ :: child :: _ => child.references .term
      | _ => []
    | .quantified =>
      match children with
      | child :: _ => child.references .atom
      | [] => []
    | .parenthesized =>
      match children with
      | _ :: _ :: child :: _ => child.references .expression
      | _ => []
    | .reference =>
      match children with
      | child :: _ => [child.labelText]
      | [] => []
    | .literal | .regex => []

/-- The labels of the references that are visited in nodes. -/
def referencesAll (c : Construct) : List Node → List Text
  | [] => []
  | n :: rest => n.references c ++ referencesAll c rest

end

/-- The rules of a definition text, as nodes. -/
def ruleNodes (n : Node) : List Node := (n.children[1]?.map Node.children).getD []

/-- The label of a rule. -/
def ruleLabel (n : Node) : Text := (n.children[0]?.map labelText).getD []

/-- The references of a rule. -/
def ruleReferences (n : Node) : List Text := (n.children[2]?.map (references .expression)).getD []

theorem childText_eq_ok {children : List Node} {i : Nat} {text : Text}
    (h : childText children i = .ok text) : ∃ child, children[i]? = some child ∧ child.text = text := by
  unfold childText at h
  split at h
  · next child hchild => exact ⟨child, hchild, Except.ok.inj h⟩
  · cases h

theorem toLabel_eq_ok {n : Node} {label : Text} (h : n.toLabel = .ok label) : n.labelText = label := by
  obtain ⟨_, -, h⟩ := bind_eq_ok h
  obtain ⟨child, hchild, htext⟩ := childText_eq_ok h
  rw [labelText, hchild, Option.map_some, Option.getD_some, htext]

variable [Platform]

mutual

/-- A phrase refers to what the references in its node name. -/
theorem targets_toPhrase {c : Construct} : ∀ {n : Node} {p : Phrase}, n.toPhrase c = .ok p →
    p.targets = n.references c
  | ⟨_, kind, name, _, start, _, children⟩, p, h => by
    rw [toPhrase.eq_def] at h
    rw [references.eq_def]
    dsimp only at h ⊢
    split at h
    · cases h
    cases c with
    | expression | alternative | term | atom =>
      cases children with
      | nil => cases h
      | cons child rest =>
        dsimp only at h ⊢
        split at h
        · cases h
        · next o ho => simpa only [ho] using targets_toPhrase h
    | ored | sequence =>
      match children with
      | [] => cases h
      | [child] =>
        obtain ⟨first, -, h⟩ := bind_eq_ok h
        cases h
      | child :: ⟨_, _, _, _, _, _, others⟩ :: _ =>
        obtain ⟨first, hfirst, h⟩ := bind_eq_ok h
        obtain ⟨more, hmore, h⟩ := bind_eq_ok h
        cases h
        simp only [Phrase.targets, Phrase.targetsAll]
        rw [targets_toPhrase hfirst, targetsAll_toPhrases hmore]
    | orTerm | parenthesized =>
      match children with
      | [] | [_] | [_, _] => cases h
      | _ :: _ :: child :: _ => exact targets_toPhrase h
    | notTerm | lookaheadTerm =>
      match children with
      | [] | [_] => cases h
      | _ :: child :: _ =>
        obtain ⟨member, hmember, h⟩ := bind_eq_ok h
        cases h
        rw [Phrase.targets, targets_toPhrase hmember]
    | quantified =>
      match children with
      | [] => cases h
      | [child] =>
        obtain ⟨member, -, h⟩ := bind_eq_ok h
        cases h
      | child :: quantifier :: _ =>
        obtain ⟨member, hmember, h⟩ := bind_eq_ok h
        obtain ⟨symbol, -, h⟩ := bind_eq_ok h
        obtain ⟨wrap, -, h⟩ := bind_eq_ok h
        cases h
        rw [Phrase.targets, targets_toPhrase hmember]
    | reference =>
      cases children with
      | nil => cases h
      | cons child rest =>
        obtain ⟨label, hlabel, h⟩ := bind_eq_ok h
        cases h
        rw [Phrase.targets, ← toLabel_eq_ok hlabel]
    | literal =>
      obtain ⟨written, -, h⟩ := bind_eq_ok h
      split at h
      · cases h
        rw [Phrase.targets]
      · cases h
    | regex =>
      obtain ⟨written, -, h⟩ := bind_eq_ok h
      obtain ⟨flags, -, h⟩ := bind_eq_ok h
      obtain ⟨pattern, -, h⟩ := bind_eq_ok h
      cases h
      rw [Phrase.targets]

theorem targetsAll_toPhrases {c : Construct} : ∀ {ns : List Node} {ps : List Phrase},
    toPhrases c ns = .ok ps → Phrase.targetsAll ps = referencesAll c ns
  | [], ps, h => by
    rw [toPhrases] at h
    cases h
    simp only [Phrase.targetsAll, referencesAll]
  | n :: rest, ps, h => by
    rw [toPhrases] at h
    obtain ⟨first, hfirst, h⟩ := bind_eq_ok h
    obtain ⟨others, hothers, h⟩ := bind_eq_ok h
    cases h
    simp only [Phrase.targetsAll, referencesAll]
    rw [targets_toPhrase hfirst, targetsAll_toPhrases hothers]

end

/-- A definition has the label and the references of its rule. -/
theorem toDefinition_eq_ok {n : Node} {d : Definition} (h : n.toDefinition = .ok d) :
    d.label = n.ruleLabel ∧ d.body.targets = n.ruleReferences := by
  obtain ⟨_, -, h⟩ := bind_eq_ok h
  rw [ruleLabel, ruleReferences]
  match hchildren : n.children with
  | [] =>
    rw [hchildren] at h
    cases h
  | label :: rest =>
    rw [hchildren] at h
    obtain ⟨text, hlabel, h⟩ := bind_eq_ok h
    match rest with
    | [] | [_] => cases h
    | _ :: body :: _ =>
      obtain ⟨phrase, hphrase, h⟩ := bind_eq_ok h
      cases h
      exact ⟨(toLabel_eq_ok hlabel).symm, targets_toPhrase hphrase⟩

/-- Definitions have the labels and references of the rules they are read from, and no
label comes twice. -/
theorem toDefinitionsAfter_eq_ok : ∀ {labels : List Text} {ns : List Node} {ds : List Definition},
    toDefinitionsAfter labels ns = .ok ds →
    ds.map Definition.label = ns.map ruleLabel ∧ Definition.targets ds = ns.flatMap ruleReferences ∧
      (ds.map Definition.label).Nodup ∧ ∀ l ∈ ds.map Definition.label, l ∉ labels
  | labels, [], ds, h => by
    rw [toDefinitionsAfter] at h
    cases h
    simp [Definition.targets]
  | labels, n :: rest, ds, h => by
    rw [toDefinitionsAfter] at h
    obtain ⟨d, hd, h⟩ := bind_eq_ok h
    split at h
    · cases h
    · next hnew =>
      obtain ⟨others, hothers, h⟩ := bind_eq_ok h
      cases h
      obtain ⟨hlabel, hreferences⟩ := toDefinition_eq_ok hd
      obtain ⟨hlabels, htargets, hnodup, hfresh⟩ := toDefinitionsAfter_eq_ok hothers
      have hnew' : d.label ∉ labels := by simpa using hnew
      refine ⟨by simp [hlabel, hlabels], ?_, ?_, ?_⟩
      · simp only [Definition.targets] at htargets ⊢
        rw [List.flatMap_cons, List.flatMap_cons, hreferences, htargets]
      · rw [List.map_cons, List.nodup_cons]
        exact ⟨fun hmem => hfresh _ hmem List.mem_cons_self, hnodup⟩
      · intro l hl
        rcases List.mem_cons.1 hl with rfl | hl
        · exact hnew'
        · exact fun hmem => hfresh l hl (List.mem_cons_of_mem _ hmem)

theorem toDefinitions_eq_ok {n : Node} {ds : List Definition} (h : n.toDefinitions = .ok ds) :
    ds.map Definition.label = n.ruleNodes.map ruleLabel ∧
      Definition.targets ds = n.ruleNodes.flatMap ruleReferences ∧ (ds.map Definition.label).Nodup := by
  obtain ⟨_, -, h⟩ := bind_eq_ok h
  rw [ruleNodes]
  match hchildren : n.children with
  | [] | [_] =>
    rw [hchildren] at h
    cases h
  | _ :: rules :: _ =>
    rw [hchildren] at h
    obtain ⟨hlabels, htargets, hnodup, -⟩ := toDefinitionsAfter_eq_ok h
    exact ⟨hlabels, htargets, hnodup⟩

/-- The rules of a tree come from its definitions. -/
theorem toPiece_rules {n : Node} {store : Store} {rules : Rules}
    (h : n.toPiece .rules = .ok (.rules store rules)) : ∃ ds, n.toDefinitions = .ok ds ∧
      (Definition.assemble ds).runOn #[] = (.ok rules, store) := by
  obtain ⟨ds, hds, h⟩ := bind_eq_ok h
  split at h
  · next rules' store' hrun =>
    cases h
    exact ⟨ds, hds, hrun⟩
  · cases h

end Node

/-! ## Every tree -/

/-- Whatever tree is read, its graph is in good order.  The rules are those of the tree, in
order, and each stands for its definition.  The references of the tree have a slot each,
which holds the rule of their label.  Every cycle meets a rule, and if no label is empty,
rendering ends. -/
theorem toPiece_linked [Platform] {n : Node} {store : Store} {rules : Rules}
    (h : n.toPiece .rules = .ok (.rules store rules)) :
    store.Linked rules ∧
    rules.map (·.1) = n.ruleNodes.map Node.ruleLabel ∧
    (∃ slots : List (ExprId × Nat), slots.Nodup ∧
      List.Forall₂ (store.HoldsRule rules) (n.ruleNodes.flatMap Node.ruleReferences) slots) ∧
    (∃ ds, n.toDefinitions = .ok ds ∧
      List.Forall₂ (fun d r => r.1 = d.label ∧ d.phrase.Stands store rules r.2) ds rules) ∧
    (∀ e, ¬ Relation.TransGen (store.Inner rules) e e) ∧
    ((∀ r ∈ rules, r.1 ≠ []) →
      ∀ e, store.Reachable rules e → Store.Settles fun depth => store.renderAt depth e) := by
  obtain ⟨ds, hds, hstore⟩ := Node.toPiece_rules h
  obtain ⟨hlabels, htargets, hnodup⟩ := Node.toDefinitions_eq_ok hds
  have hcomplete := Definition.complete_of_assemble hstore
  rw [Definition.assemble_runOn hcomplete] at hstore
  cases hstore
  have hlinked := Definition.linked_graph hcomplete hnodup
  refine ⟨hlinked, ?_, ?_, ⟨ds, hds, ?_⟩, hlinked.no_inner_cycle, hlinked.renderAt_settles⟩
  · rw [Definition.names_rulesFrom, hlabels]
  · rw [← htargets]
    exact Definition.slots_graph hcomplete
  · exact Definition.stand_rulesFrom (Definition.holds_toArray _) fun t ht =>
      Definition.lookup_rulesFrom (hcomplete t ht)

/-- A node of a rule. -/
def Node.ofRule (name : String) (children : List Node) : Node :=
  ⟨0, .sequence, name.toText, [], 0, 0, children⟩

/-- A label of one character. -/
def Node.ofLabel (c : Codepoint) : Node := .ofRule "label" [⟨0, .regex, [], [c], 0, 1, []⟩]

/-- A rule that is just a reference. -/
def Node.ofAlias (label target : Codepoint) : Node :=
  .ofRule "rule" [.ofLabel label, .ofRule "equals" [],
    .ofRule "expression" [.ofRule "term" [.ofRule "atom" [.ofRule "reference" [.ofLabel target]]]]]

/-- Two rules that refer to each other. -/
def Node.mutualAliases : Node :=
  .ofRule "rules" [.ofRule "_" [], .ofRule "" [.ofAlias 'a' 'b', .ofAlias 'b' 'a']]

attribute [local instance] Platform.builtIn

theorem toPiece_linked_mutualAliases : ∃ store rules,
    Node.mutualAliases.toPiece .rules = .ok (.rules store rules) ∧ store.Linked rules ∧
      rules.map (·.1) = ["a".toText, "b".toText] ∧ ∃ slots : List (ExprId × Nat), slots.Nodup ∧
        List.Forall₂ (store.HoldsRule rules) ["b".toText, "a".toText] slots := by
  have hpiece : Node.mutualAliases.toPiece .rules = .ok (.rules
      #[⟨[], .reference ['b'] (some ⟨1, some 0⟩)⟩, ⟨['a'], .compound .sequence [3] true⟩,
        ⟨[], .reference ['a'] (some ⟨3, some 0⟩)⟩, ⟨['b'], .compound .sequence [1] true⟩]
      [(['a'], 1), (['b'], 3)]) := by rfl
  obtain ⟨hlinked, -, hslots, -⟩ := toPiece_linked hpiece
  exact ⟨_, _, hpiece, hlinked, rfl, hslots⟩

end Pegboard
