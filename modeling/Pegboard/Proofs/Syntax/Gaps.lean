import Pegboard.Proofs.Match.Tiling
import Pegboard.Proofs.Syntax.Rereading

/-!
# Where the layout of a tree stands

In the tree of a spelling every token but a mark has a node of layout after it.  A mark and
its term have a node of layout after them as well, which is empty, since the term has taken
all the layout there is.  So a node of layout stands after a token that is not a mark, and
either takes up all the layout there or is empty at its end (`Gap`).
-/

namespace Pegboard

namespace Node

/-- The nodes of a tree whose names have a property, in preorder. -/
def having (q : Text → Bool) (n : Node) : List Node := n.nodes.filter fun m => q m.name

theorem filter_nodesAll (q : Node → Bool) (ns : List Node) :
    (nodesAll ns).filter q = ns.flatMap fun n => n.nodes.filter q := by
  induction ns with
  | nil => rfl
  | cons n rest ih => rw [nodesAll, List.filter_append, ih, List.flatMap_cons]

theorem having_of_not {q : Text → Bool} {n : Node} (h : q n.name = false) :
    n.having q = n.children.flatMap (having q) := by
  rw [having, nodes_eq, List.filter_cons_of_neg (by rw [h]; exact Bool.false_ne_true), filter_nodesAll]
  rfl

theorem having_of {q : Text → Bool} {n : Node} (h : q n.name = true) :
    n.having q = n :: n.children.flatMap (having q) := by
  rw [having, nodes_eq, List.filter_cons_of_pos (by exact h), filter_nodesAll]
  rfl

end Node

namespace Syntax

/-- The node of an alternative's terms has the nodes of the terms, and is of no other name than a
sequence. -/
theorem having_termsNode (whole : Text) (ids : Part → ExprId) {q : Text → Bool}
    (hsequence : q Part.sequence.name = false) (hmore : q [] = false) (n length : Nat) (terms : List Node) :
    (termsNode whole ids n length terms).having q = terms.flatMap (Node.having q) := by
  rcases terms with _ | ⟨term, _ | ⟨term', rest⟩⟩
  · rw [termsNode, Node.having_of_not hsequence]
    · exact congrArg (· ++ []) (Node.having_of_not hmore)
    · simp
  · rw [termsNode, List.flatMap_singleton]
  · have hrest : ∀ start stop, Node.having q ⟨ids .moreTerms, .plus, [], whole, start, stop, term' :: rest⟩ =
        (term' :: rest).flatMap (Node.having q) := fun _ _ => Node.having_of_not hmore
    rw [termsNode, Node.having_of_not hsequence]
    · simp [nodeAt, hrest]
    · simp

/-- The nodes of layout in a tree. -/
def layoutsIn (n : Node) : List Node := n.nodes.filter fun m => m.name == Part.layout.name

section Nodes

variable (whole : Text) (ids : Part → ExprId)

theorem name_eq_layout {p : Part} (hp : p ≠ .layout) : (p.name == Part.layout.name) = false := by
  revert hp
  cases p <;> decide

/-- A node that is no layout has the layout of its children. -/
theorem layoutsIn_of_name {n : Node} (h : (n.name == Part.layout.name) = false) :
    layoutsIn n = n.children.flatMap layoutsIn :=
  @Node.having_of_not (· == Part.layout.name) n h

theorem layoutsIn_nodeAt {p : Part} (hp : p ≠ .layout) (n length : Nat) (children : List Node) :
    layoutsIn (nodeAt whole ids p n length children) = children.flatMap layoutsIn :=
  layoutsIn_of_name (name_eq_layout hp)

theorem layoutsIn_blankNode (b : Blank) (n : Nat) : layoutsIn (blankNode whole ids b n) = [] := by
  cases b <;> rfl

theorem layoutsIn_layoutNode (layout : Layout) (n : Nat) :
    layoutsIn (layoutNode whole ids layout n) = [layoutNode whole ids layout n] := by
  have hblanks : ∀ (layout : Layout) (n : Nat),
      (nodesFrom (blankNode whole ids) Blank.text n layout).flatMap layoutsIn = [] := by
    intro layout
    induction layout with
    | nil => exact fun _ => rfl
    | cons b rest ih =>
      intro n
      rw [nodesFrom, List.flatMap_cons, layoutsIn_blankNode, ih, List.nil_append]
  exact (@Node.having_of (· == Part.layout.name) _ rfl).trans (congrArg _ (hblanks layout n))

/-- The node of an alternative's terms has the layout of the terms. -/
theorem layoutsIn_termsNode (n length : Nat) (terms : List Node) :
    layoutsIn (termsNode whole ids n length terms) = terms.flatMap layoutsIn :=
  @having_termsNode whole ids (· == Part.layout.name) rfl rfl n length terms

end Nodes

/-! ## Gaps -/

/-- A node of layout stands after one of the pieces that start at an offset, which is not a
mark, and takes up the layout there or is empty at its end. -/
def Gap (ps : List Piece) (n : Nat) (m : Node) : Prop :=
  ∃ before p after, ps = before ++ p :: after ∧ p.token.isMark = false ∧
    m.stop = (n + (textOf before).length + p.text.length : Nat) ∧
    (m.start = (n + (textOf before).length + p.token.text.length : Nat) ∨ m.start = m.stop)

section Gap

variable {ps qs : List Piece} {n : Nat} {m : Node}

theorem Gap.left (h : Gap ps n m) : Gap (ps ++ qs) n m := by
  obtain ⟨before, p, after, rfl, hspan⟩ := h
  exact ⟨before, p, after ++ qs, by rw [List.append_assoc, List.cons_append], hspan⟩

theorem Gap.right (h : Gap qs (n + (textOf ps).length) m) : Gap (ps ++ qs) n m := by
  obtain ⟨before, p, after, rfl, hmark, hspan⟩ := h
  refine ⟨ps ++ before, p, after, by rw [List.append_assoc], hmark, ?_⟩
  rwa [textOf_append, List.length_append, ← Nat.add_assoc]

/-- The layout after a token. -/
theorem Gap.layoutNode (whole : Text) (ids : Part → ExprId) {t : Token} (ht : t.isMark = false)
    (after : Layout) (n : Nat) :
    Gap [⟨t, after⟩] n (Syntax.layoutNode whole ids after (n + t.text.length)) := by
  refine ⟨[], ⟨t, after⟩, [], rfl, ht, ?_, .inl rfl⟩
  simp [Syntax.layoutNode, nodeAt, Piece.text]
  omega

/-- The last token of a spelling is not a mark. -/
theorem exists_last_piece : {r : Rank} → (c : Spelling r) →
    ∃ before p, c.pieces = before ++ [p] ∧ p.token.isMark = false
  | _, .reference _ _ => ⟨[], _, rfl, rfl⟩
  | _, .literal _ _ => ⟨[], _, rfl, rfl⟩
  | _, .regex _ _ _ => ⟨[], _, rfl, rfl⟩
  | _, .group before inner _ => ⟨⟨.sign .opening, before⟩ :: inner.pieces, _, rfl, rfl⟩
  | _, .negation member => by
    obtain ⟨before, p, h, hp⟩ := exists_last_piece member
    exact ⟨_ :: before, p, by rw [Spelling.pieces, h]; rfl, hp⟩
  | _, .lookahead member => by
    obtain ⟨before, p, h, hp⟩ := exists_last_piece member
    exact ⟨_ :: before, p, by rw [Spelling.pieces, h]; rfl, hp⟩
  | _, .quantified member _ _ => ⟨member.pieces, _, rfl, rfl⟩
  | _, .plain atom => exists_last_piece atom
  | _, .last term => exists_last_piece term
  | _, .more term rest => by
    obtain ⟨before, p, h, hp⟩ := exists_last_piece rest
    exact ⟨term.pieces ++ before, p, by rw [Spelling.pieces, h, List.append_assoc], hp⟩
  | _, .lastBranch _ terms => by
    obtain ⟨before, p, h, hp⟩ := exists_last_piece terms
    exact ⟨_ :: before, p, by rw [Spelling.pieces, h]; rfl, hp⟩
  | _, .moreBranches _ terms rest => by
    obtain ⟨before, p, h, hp⟩ := exists_last_piece rest
    exact ⟨_ :: (terms.pieces ++ before), p,
      by rw [Spelling.pieces, h, List.cons_append, List.append_assoc], hp⟩
  | _, .single terms => exists_last_piece terms
  | _, .choice first rest => by
    obtain ⟨before, p, h, hp⟩ := exists_last_piece rest
    exact ⟨first.pieces ++ before, p, by rw [Spelling.pieces, h, List.append_assoc], hp⟩

/-- The empty layout after a mark and its term. -/
theorem Gap.afterTerm (whole : Text) (ids : Part → ExprId) (t : Spelling .term) (n : Nat) :
    Gap t.pieces n (Syntax.layoutNode whole ids [] (n + t.text.length)) := by
  obtain ⟨before, p, hpieces, hp⟩ := exists_last_piece t
  refine ⟨before, p, [], hpieces, hp, ?_, .inr rfl⟩
  have hlength := congrArg List.length t.textOf_pieces
  rw [hpieces, textOf_append, List.length_append, show textOf [p] = p.text from List.flatMap_singleton ..]
    at hlength
  simp only [Syntax.layoutNode, nodeAt, Layout.text, List.flatMap_nil, List.length_nil, ← hlength]
  omega

/-- The text on both sides of a node of layout at a gap, behind another text. -/
theorem Gap.texts {first : Text} (h : Gap ps first.length m) :
    ∃ before p after kept, ps = before ++ p :: after ∧ p.token.isMark = false ∧
      (kept = [] ∨ kept = p.after) ∧ m.start ≤ m.stop ∧
      (first ++ textOf ps).take m.start.toNat =
        first ++ (textOf before ++ (p.token.text ++ Layout.text kept)) ∧
      (first ++ textOf ps).drop m.stop.toNat = textOf after := by
  obtain ⟨before, p, after, rfl, hmark, hstop, hstart⟩ := h
  have hlength : p.text.length = p.token.text.length + (Layout.text p.after).length := List.length_append
  have hleft : ∀ x, first ++ (textOf before ++ (p.token.text ++ x)) =
      (first ++ (textOf before ++ p.token.text)) ++ x := by simp
  have hright : first ++ textOf (before ++ p :: after) =
      (first ++ (textOf before ++ (p.token.text ++ Layout.text p.after))) ++ textOf after := by simp
  have hdrop : (first ++ textOf (before ++ p :: after)).drop m.stop.toNat = textOf after := by
    rw [hright]
    exact List.drop_left' (by simp only [List.length_append]; omega)
  rcases hstart with hstart | hstart
  · refine ⟨before, p, after, [], rfl, hmark, .inl rfl, by omega, ?_, hdrop⟩
    rw [textOf_append, textOf_cons, hleft, show Layout.text [] = [] from rfl, List.append_nil]
    exact List.take_left' (by simp only [List.length_append]; omega)
  · refine ⟨before, p, after, p.after, rfl, hmark, .inr rfl, by omega, ?_, hdrop⟩
    rw [hright]
    exact List.take_left' (by simp only [List.length_append]; omega)

end Gap

/-- The nodes of a tree of a spelling: one, or several. -/
def Shape.toList : {r : Rank} → Shape r → List Node
  | .atom, n | .term, n | .expression, n => [n]
  | .terms, ns | .branches, ns => ns

/-- The layout in trees stands at gaps of the pieces from an offset on. -/
def AtGaps (ps : List Piece) (n : Nat) (ns : List Node) : Prop := ∀ m ∈ ns.flatMap layoutsIn, Gap ps n m

section AtGaps

variable {whole : Text} {ids : Part → ExprId} {ps qs : List Piece} {n : Nat} {ns ns' : List Node}

theorem AtGaps.append {n' : Nat} (h : AtGaps ps n ns) (h' : AtGaps qs n' ns')
    (hn : n' = n + (textOf ps).length) : AtGaps (ps ++ qs) n (ns ++ ns') := by
  intro m hm
  rw [List.flatMap_append, List.mem_append] at hm
  subst hn
  exact hm.elim (fun hm => (h m hm).left) fun hm => (h' m hm).right

/-- A node around trees has no layout of its own. -/
theorem AtGaps.around {p : Part} (hp : p ≠ .layout) (h : AtGaps ps n ns) (k length : Nat) :
    AtGaps ps n [nodeAt whole ids p k length ns] := by
  intro m hm
  rw [List.flatMap_singleton, layoutsIn_nodeAt whole ids hp] at hm
  exact h m hm

theorem AtGaps.leaf {p : Part} (hp : p ≠ .layout) (h : AtGaps ps n ns) (k length : Nat) :
    AtGaps ps n (nodeAt whole ids p k length [] :: ns) := by
  intro m hm
  rw [List.flatMap_cons, layoutsIn_nodeAt whole ids hp] at hm
  exact h m hm

theorem atGaps_nil (n : Nat) : AtGaps ps n [] := nofun

theorem atGaps_layout {t : Token} (ht : t.isMark = false) (after : Layout) (n : Nat) :
    AtGaps [⟨t, after⟩] n [layoutNode whole ids after (n + t.text.length)] := by
  intro m hm
  rw [List.flatMap_singleton, layoutsIn_layoutNode] at hm
  rw [List.mem_singleton.1 hm]
  exact .layoutNode whole ids ht after n

theorem atGaps_token {p token : Part} (hp : p ≠ .layout) (htoken : token ≠ .layout) {t : Token}
    (ht : t.isMark = false) (after : Layout) (n : Nat) :
    AtGaps [⟨t, after⟩] n [tokenNode whole ids p token t.text after n] :=
  .around hp (.leaf htoken (atGaps_layout ht after n) _ _) _ _

/-- A mark and its term, and the empty layout after them. -/
theorem atGaps_marked {p mark : Part} (hp : p ≠ .layout) (hmark : mark ≠ .layout) {g : Sign}
    {t : Spelling .term} (h : AtGaps t.pieces (n + 1) [t.node whole ids (n + 1)]) (length : Nat) :
    AtGaps (⟨.sign g, []⟩ :: t.pieces) n [nodeAt whole ids p n length [nodeAt whole ids mark n 1 [],
      t.node whole ids (n + 1), layoutNode whole ids [] (n + 1 + t.text.length)]] := by
  have hterm : AtGaps t.pieces (n + 1)
      [t.node whole ids (n + 1), layoutNode whole ids [] (n + 1 + t.text.length)] := by
    intro m hm
    rw [List.flatMap_cons, List.flatMap_singleton, List.mem_append, layoutsIn_layoutNode] at hm
    rcases hm with hm | hm
    · exact h m (by rwa [List.flatMap_singleton])
    · rw [List.mem_singleton.1 hm]
      exact .afterTerm whole ids t (n + 1)
  have hsign : AtGaps [⟨.sign g, []⟩] n [] := atGaps_nil n
  have hall := hsign.append hterm (by simp [Token.text, Layout.text])
  exact .around hp (.leaf hmark hall n 1) n length

/-- The terms of an alternative. -/
theorem AtGaps.alternative {k length : Nat} (h : AtGaps ps n ns) :
    AtGaps ps n [alternativeNode whole ids k length ns] := by
  refine .around (by decide) ?_ k length
  intro m hm
  rw [List.flatMap_singleton, layoutsIn_termsNode] at hm
  exact h m hm

/-- A slash and the terms of an alternative. -/
theorem atGaps_branch (before : Layout) {ts : Spelling .terms} {n' : Nat}
    (hn : n' = n + 1 + (Layout.text before).length) (h : AtGaps ts.pieces n' (ts.node whole ids n')) :
    AtGaps (⟨.sign .slash, before⟩ :: ts.pieces) n
      [branchNode whole ids before ts.text.length n (ts.node whole ids n')] := by
  have hslash : AtGaps [⟨.sign .slash, before⟩] n [layoutNode whole ids before (n + 1)] :=
    atGaps_layout rfl before n
  subst hn
  exact .around (by decide) (.leaf (by decide) (hslash.append h.alternative
    (by simp [Token.text]; omega)) n 1) _ _

end AtGaps

/-- The layout in the tree of a spelling stands at its gaps. -/
theorem atGaps_spelling (whole : Text) (ids : Part → ExprId) : {r : Rank} → (c : Spelling r) → (n : Nat) →
    AtGaps c.pieces n (Shape.toList (c.node whole ids n))
  | _, .reference label after, n => by
    have hlabel : AtGaps [⟨.label label, after⟩] n
        [tokenNode whole ids .label .labelText label.text after n] :=
      atGaps_token (by decide) (by decide) rfl after n
    have hend : ∀ k, AtGaps [] k [nodeAt whole ids .notEquals k 0 []] :=
      fun k => .leaf (by decide) (atGaps_nil k) k 0
    have hall := hlabel.append (hend (n + (label.text.length + (Layout.text after).length)))
      (by simp [Token.text])
    exact .around (by decide) (.around (by decide) hall _ _) _ _
  | _, .literal quoted after, n =>
    .around (by decide) (atGaps_token (by decide) (by decide) rfl after n) n _
  | _, .regex quoted flags after, n => by
    have hlayout : AtGaps [⟨.regex quoted flags, after⟩] n
        [layoutNode whole ids after (n + 1 + quoted.text.length + flags.text.length)] := by
      rw [show n + 1 + quoted.text.length + flags.text.length =
        n + (Token.regex quoted flags).text.length by simp [Token.text]; omega]
      exact atGaps_layout rfl after n
    exact .around (by decide) (.around (by decide) (.leaf (by decide) (.leaf (by decide)
      (.leaf (by decide) hlayout _ _) _ _) _ _) _ _) _ _
  | _, .group before inner after, n => by
    have hbefore : AtGaps [⟨.sign .opening, before⟩] n [layoutNode whole ids before (n + 1)] :=
      atGaps_layout rfl before n
    have hinner := atGaps_spelling whole ids inner (n + 1 + (Layout.text before).length)
    have hafter : ∀ k, AtGaps [⟨.sign .closing, after⟩] k
        [nodeAt whole ids .closing k 1 [], layoutNode whole ids after (k + 1)] :=
      fun k => .leaf (by decide) (atGaps_layout rfl after k) k 1
    have hall := hbefore.append (hinner.append (hafter _) (by rw [inner.textOf_pieces]))
      (by simp [Token.text]; omega)
    exact .around (by decide) (.around (by decide) (.leaf (by decide) hall _ _) _ _) _ _
  | _, .negation member, n =>
    .around (by decide)
      (atGaps_marked (by decide) (by decide) (atGaps_spelling whole ids member (n + 1)) _) n _
  | _, .lookahead member, n =>
    .around (by decide)
      (atGaps_marked (by decide) (by decide) (atGaps_spelling whole ids member (n + 1)) _) n _
  | _, .quantified member quantifier after, n => by
    have hmember := atGaps_spelling whole ids member n
    have hsign : ∀ k, AtGaps [⟨.sign (.quantifier quantifier), after⟩] k
        [tokenNode whole ids .quantifier .quantifierSign [quantifier.symbol] after k] :=
      fun k => atGaps_token (by decide) (by decide) rfl after k
    have hall := hmember.append (hsign _) (by rw [member.textOf_pieces])
    exact .around (by decide) (.around (by decide) hall _ _) _ _
  | _, .plain atom, n => .around (by decide) (atGaps_spelling whole ids atom n) n _
  | _, .last term, n => atGaps_spelling whole ids term n
  | _, .more term rest, n =>
    (atGaps_spelling whole ids term n).append (atGaps_spelling whole ids rest (n + term.text.length))
      (by rw [term.textOf_pieces])
  | _, .lastBranch before terms, n => atGaps_branch before rfl (atGaps_spelling whole ids terms _)
  | _, .moreBranches before terms rest, n =>
    (atGaps_branch before rfl (atGaps_spelling whole ids terms _)).append
      (atGaps_spelling whole ids rest _) (by simp [Token.text, terms.textOf_pieces]; omega)
  | _, .single terms, n => by
    have hterms := atGaps_spelling whole ids terms n
    refine .around (by decide) (fun m hm => ?_) n terms.text.length
    rw [List.flatMap_singleton, layoutsIn_termsNode] at hm
    exact hterms m hm
  | _, .choice first rest, n => by
    have hfirst : AtGaps first.pieces n
        [alternativeNode whole ids n first.text.length (first.node whole ids n)] :=
      (atGaps_spelling whole ids first n).alternative
    have hrest : ∀ k, AtGaps rest.pieces k
        [nodeAt whole ids .orTerms k rest.text.length (rest.node whole ids k)] :=
      fun k => .around (by decide) (atGaps_spelling whole ids rest k) k _
    have hall := hfirst.append (hrest _) (by rw [first.textOf_pieces])
    exact .around (by decide) (.around (by decide) hall _ _) _ _

/-- The layout in the tree of a rule stands at its gaps. -/
theorem atGaps_rule (whole : Text) (ids : Part → ExprId) (r : RuleSpelling) (n : Nat) :
    AtGaps r.pieces n [r.node whole ids n] := by
  have hlabel : AtGaps [⟨.label r.label, r.afterLabel⟩] n
      [tokenNode whole ids .label .labelText r.label.text r.afterLabel n] :=
    atGaps_token (by decide) (by decide) rfl r.afterLabel n
  have hequals : ∀ k, AtGaps (⟨.sign .equals, r.afterEquals⟩ :: r.body.pieces) k
      [tokenNode whole ids .equals .equalsSign ['='] r.afterEquals k,
        r.body.node whole ids (k + 1 + (Layout.text r.afterEquals).length)] := by
    intro k
    have hsign : AtGaps [⟨.sign .equals, r.afterEquals⟩] k
        [tokenNode whole ids .equals .equalsSign ['='] r.afterEquals k] :=
      atGaps_token (by decide) (by decide) rfl r.afterEquals k
    exact hsign.append (atGaps_spelling whole ids r.body _)
      (by simp [Token.text, Sign.symbol]; omega)
  exact .around (by decide) (hlabel.append (hequals _) (by simp [Token.text, Nat.add_assoc])) n _

theorem atGaps_rules (whole : Text) (ids : Part → ExprId) : ∀ (rs : List RuleSpelling) (n : Nat),
    AtGaps (rs.flatMap RuleSpelling.pieces) n (nodesFrom (RuleSpelling.node whole ids) RuleSpelling.text n rs)
  | [], n => atGaps_nil n
  | r :: rest, n =>
    (atGaps_rule whole ids r n).append (atGaps_rules whole ids rest (n + r.text.length))
      (by rw [r.textOf_pieces])

/-- Layout in the tree of a definition text comes before the rules or stands at one of their
gaps. -/
theorem RulesSpelling.layout_of_mem (r : RulesSpelling) (whole : Text) (ids : Part → ExprId) {m : Node}
    (hm : m ∈ (r.node whole ids).nodes) (hname : m.name = Part.layout.name) :
    m = layoutNode whole ids r.before 0 ∨ Gap r.pieces (Layout.text r.before).length m := by
  have hlayout : m ∈ layoutsIn (r.node whole ids) := List.mem_filter.2 ⟨hm, beq_iff_eq.2 hname⟩
  rw [RulesSpelling.node, layoutsIn_nodeAt whole ids (by decide), List.flatMap_cons, List.mem_append,
    layoutsIn_layoutNode, List.mem_singleton] at hlayout
  exact hlayout.imp_right
    (AtGaps.around (by decide) (atGaps_rules whole ids r.rules (Layout.text r.before).length) _ _ m)

end Syntax

end Pegboard
