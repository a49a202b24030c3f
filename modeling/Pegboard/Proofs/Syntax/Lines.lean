import Pegboard.Proofs.Syntax.Gaps
import Pegboard.Proofs.Syntax.Truncation

/-!
# The rules of a definition text, one by one

In the tree of a definition text there is one node of a rule for each of its rules, in their
order, and none of them is inside another one (`nodesNamed_rule_rules`).  The text of such a node is
the rule with the layout after it.

A rule is cut out of a definition text as it stands there, and what it spells does not depend
on what came after it.  So the rules of a text can be written one a line, in any order and
any number of them, and they are read as what they were (`readsAs_lines`).
-/

namespace Pegboard

/-- The nodes of a tree that have a name, in preorder. -/
def Node.nodesNamed (name : Text) (n : Node) : List Node := n.nodes.filter fun m => m.name == name

theorem Node.nodesNamed_of_ne {name : Text} {n : Node} (h : (n.name == name) = false) :
    n.nodesNamed name = n.children.flatMap (nodesNamed name) :=
  @having_of_not (· == name) n h

theorem Node.nodesNamed_of_eq {name : Text} {n : Node} (h : (n.name == name) = true) :
    n.nodesNamed name = n :: n.children.flatMap (nodesNamed name) :=
  @having_of (· == name) n h

/-- A child of a node is a match of a member of the node's expression. -/
theorem Node.Tiles.origin_mem [Platform] {store : Store} {text : Text} {n c : Node}
    (h : n.Tiles store text) (hc : c ∈ n.children) : c.origin ∈ store.membersOf n.origin := by
  obtain ⟨cell, hcell, -, -, htiles⟩ := h.tiled
  rw [Store.membersOf_eq hcell, Cell.members]
  have hwraps : ∀ {child}, n.Wraps child → c = child := fun hwraps => by
    rw [hwraps.1] at hc
    exact List.mem_singleton.1 hc
  have hnone : n.children ≠ [] := List.ne_nil_of_mem hc
  rcases hform : cell.form with piece | pattern | ⟨order, members, frozen⟩ | ⟨wrap, member⟩ |
    ⟨target, place⟩ | _ <;> rw [hform] at htiles
  · exact absurd htiles hnone
  · exact absurd htiles hnone
  · cases order with
    | sequence =>
      obtain ⟨rfl, -⟩ := htiles
      exact List.mem_map_of_mem hc
    | choice =>
      obtain ⟨child, hchild, hmem⟩ := htiles
      rw [hwraps hchild]
      exact hmem
  · refine List.mem_singleton.2 ?_
    cases wrap with
    | lookahead | negation => exact absurd htiles.1 hnone
    | optional =>
      obtain ⟨⟨child, hchild, hmember⟩ | ⟨hnil, -⟩, -⟩ := htiles
      · rw [hwraps hchild, hmember]
      · exact absurd hnil hnone
    | star | plus least => exact (htiles.1 c hc).1
  · exact htiles.elim
  · exact htiles.elim

namespace Syntax

open Store

/-! ## The nodes of rules -/

/-- A part of a rule is no rule, and neither is a part of such a part. -/
theorem Part.rank_below_rule : ∀ p ∈ Part.all, p.rank ≤ 15 →
    (p.name == Part.rule.name) = false ∧ ∀ q ∈ p.members true, q.rank ≤ 15 := by
  decide

section Nodes

variable {store : Store} {ids : Part → ExprId} {whole : Text}

/-- There is no node of a rule in the tree of a part of a rule. -/
theorem nodesNamed_rule_eq_nil [Platform] (hs : Speaks true store ids) {n : Node} {p : Part}
    (hp : p.rank ≤ 15) (horigin : n.origin = ids p) (htiles : ∀ m ∈ n.nodes, m.Tiles store whole) :
    n.nodesNamed Part.rule.name = [] := by
  rw [Node.nodesNamed, List.filter_eq_nil_iff]
  induction n using Node.induct generalizing p with
  | _ n ih =>
    obtain ⟨hnode, hbelow⟩ := Node.tiles_child htiles
    obtain ⟨hname, hmembers⟩ := Part.rank_below_rule p p.mem_all hp
    have hcell := hs p fun _ => rfl
    intro m hm
    rcases Node.mem_nodes.1 hm with rfl | ⟨c, hc, hm⟩
    · obtain ⟨cell, hcell', -, hcellName, -⟩ := hnode.tiled
      obtain rfl : ⟨p.name, p.form true ids⟩ = cell :=
        Option.some.inj (hcell.symm.trans (horigin ▸ hcell'))
      rw [hcellName, hname]
      exact Bool.false_ne_true
    · have hmem := hnode.origin_mem hc
      rw [horigin, membersOf_eq hcell, Cell.members, Part.members_form] at hmem
      obtain ⟨q, hq, hqc⟩ := List.mem_map.1 hmem
      exact ih c hc (hmembers q hq) hqc.symm (hbelow c hc) m hm

/-- There is no node of a rule inside that of a rule. -/
theorem nodesNamed_rule_node [Platform] (hs : Speaks true store ids) (r : RuleSpelling) (n : Nat)
    (htiles : ∀ m ∈ (r.node whole ids n).nodes, m.Tiles store whole) :
    (r.node whole ids n).nodesNamed Part.rule.name = [r.node whole ids n] := by
  obtain ⟨hnode, hchildren⟩ := Node.tiles_child htiles
  refine (Node.nodesNamed_of_eq rfl).trans (congrArg _ ?_)
  refine List.flatMap_eq_nil_iff.2 fun c hc => ?_
  have hmem := hnode.origin_mem hc
  change _ ∈ store.membersOf (ids .rule) at hmem
  rw [membersOf_eq (hs .rule fun _ => rfl), Cell.members, Part.members_form] at hmem
  obtain ⟨q, hq, hqc⟩ := List.mem_map.1 hmem
  have hrank : ∀ q ∈ Part.rule.members true, q.rank ≤ 15 := by decide
  exact nodesNamed_rule_eq_nil hs (hrank q hq) hqc.symm (hchildren c hc)

theorem flatMap_nodesNamed_rule [Platform] (hs : Speaks true store ids) : ∀ {rs : List RuleSpelling}
    {n : Nat},
    (∀ c ∈ nodesFrom (RuleSpelling.node whole ids) RuleSpelling.text n rs, ∀ m ∈ c.nodes,
      m.Tiles store whole) →
    (nodesFrom (RuleSpelling.node whole ids) RuleSpelling.text n rs).flatMap
        (Node.nodesNamed Part.rule.name) =
      nodesFrom (RuleSpelling.node whole ids) RuleSpelling.text n rs
  | [], _, _ => rfl
  | r :: rs, n, h => by
    rw [nodesFrom] at h ⊢
    obtain ⟨hr, hrs⟩ := List.forall_mem_cons.1 h
    rw [List.flatMap_cons, nodesNamed_rule_node hs r n hr, flatMap_nodesNamed_rule hs hrs, List.singleton_append]

/-- The nodes of rules in the tree of a definition text are those of its rules, in order. -/
theorem nodesNamed_rule_rules [Platform] (hs : Speaks true store ids) {r : RulesSpelling}
    (htiles : ∀ m ∈ (r.node whole ids).nodes, m.Tiles store whole) :
    (r.node whole ids).nodesNamed Part.rule.name =
      nodesFrom (RuleSpelling.node whole ids) RuleSpelling.text (Layout.text r.before).length r.rules := by
  obtain ⟨hlayout, hrest⟩ := List.forall_mem_cons.1 (Node.tiles_child htiles).2
  have hlist := List.forall_mem_singleton.1 hrest
  rw [Node.nodesNamed_of_ne rfl]
  change List.flatMap _ [layoutNode whole ids r.before 0, nodeAt whole ids .ruleList _ _ _] = _
  rw [List.flatMap_cons, nodesNamed_rule_eq_nil hs (p := .layout) (by decide) rfl hlayout, List.nil_append,
    List.flatMap_singleton, Node.nodesNamed_of_ne rfl]
  exact flatMap_nodesNamed_rule hs (Node.tiles_child hlist).2

/-- The texts of the nodes of rules. -/
theorem map_text_ruleNodes (ids : Part → ExprId) : ∀ {rs : List RuleSpelling} {n : Nat},
    whole.drop n = rs.flatMap RuleSpelling.text →
    (nodesFrom (RuleSpelling.node whole ids) RuleSpelling.text n rs).map Node.text =
      rs.map RuleSpelling.text
  | [], _, _ => rfl
  | r :: rs, n, h => by
    rw [List.flatMap_cons] at h
    rw [nodesFrom, List.map_cons, List.map_cons, map_text_ruleNodes ids (drop_append h), RuleSpelling.node,
      text_nodeAt ids h]

end Nodes

/-! ## Rules on lines -/

/-- What is cut into pieces spells them alone as well, without what came after it. -/
theorem Cuts.spells_alone {s rest : Text} {ps : List Piece} (h : Cuts s ps rest) :
    Spells (textOf ps) (ps.map Piece.lexeme) := by
  have hspells := h.alone.spells .nil
  rwa [List.append_nil] at hspells

/-- A rule is cut out of some text. -/
def RuleSpelling.IsCut (r : RuleSpelling) : Prop := ∃ s rest, Cuts s r.pieces rest

theorem RulesSpelling.isCut {s rest : Text} {r : RulesSpelling} (h : readRules true s = some (r, rest)) :
    ∀ rule ∈ r.rules, rule.IsCut := by
  intro rule hrule
  obtain ⟨front, back, hrules⟩ := List.append_of_mem hrule
  have hcuts := (takes_rules h).1
  rw [pieces, hrules, List.flatMap_append, List.flatMap_cons] at hcuts
  exact ⟨_, _, hcuts.split.2.split.1⟩

/-- A rule and a line break spell the rule before whatever comes next. -/
theorem RuleSpelling.IsCut.spells_line {r : RuleSpelling} (h : r.IsCut) {y : Text} {ls : List Lexeme}
    (hy : Spells y ls) : Spells (r.text ++ .char '\n' :: y) (r.lexemes ++ ls) := by
  obtain ⟨s, rest, hcuts⟩ := h
  obtain ⟨before, p, hpieces, hmark⟩ : ∃ before p, r.pieces = before ++ [p] ∧ p.token.isMark = false := by
    obtain ⟨before, p, hbody, hmark⟩ := Syntax.exists_last_piece r.body
    exact ⟨_ :: _ :: before, p, by rw [pieces, hbody]; rfl, hmark⟩
  rw [hpieces] at hcuts
  have hspells := hcuts.spells_line hmark hy
  rwa [← hpieces, r.textOf_pieces] at hspells

/-- Rules that are written one a line spell what they did. -/
theorem spells_lines : ∀ {rs : List RuleSpelling}, (∀ r ∈ rs, r.IsCut) →
    Spells (Text.join ['\n'] (rs.map RuleSpelling.text)) (rs.flatMap RuleSpelling.lexemes)
  | [], _ => .nil
  | [r], h => by
    obtain ⟨s, rest, hcuts⟩ := h r (List.mem_singleton_self r)
    have hspells := hcuts.spells_alone
    rw [r.textOf_pieces] at hspells
    rwa [List.map_singleton, List.flatMap_singleton, Text.join]
  | r :: r' :: rs, h => by
    obtain ⟨hr, hrs⟩ := List.forall_mem_cons.1 h
    have hspells := hr.spells_line (spells_lines hrs)
    simpa [Text.join] using hspells

/-- Rules that are written one a line are read as what they were. -/
theorem readsAs_lines [Platform] {rs : List RuleSpelling} (hne : rs ≠ []) (h : ∀ r ∈ rs, r.IsCut) :
    ReadsAs (Text.join ['\n'] (rs.map RuleSpelling.text)) rs := by
  have hspells := spells_lines h
  obtain ⟨r, rest, rfl⟩ := List.exists_cons_of_ne_nil hne
  refine readsAs_of_spells ?_
  rwa [readLayout_of_none hspells.readBlank]

end Syntax

end Pegboard
