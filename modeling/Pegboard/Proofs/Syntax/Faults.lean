import Pegboard.Proofs.Grammar.Compile
import Pegboard.Proofs.Syntax.Lines

/-!
# What is wrong with a definition text

A literal that spells no text is wrong where it begins, and a pattern is wrong if it is
rejected.  `Node.fault?` says it of one node, whatever stands around it.  The first of these
nodes in a rule is what makes the reader refuse the rule (`Reports`).

A rule may also have the label of an earlier one, and the first rule with a fault or with such
a label is what makes the reader refuse the text (`fault_of_toDefinitionsAfter`).
-/

namespace Pegboard

/-- Why a result is refused, if it is. -/
def refusal? {α : Type} : Except Error α → Option Error
  | .ok _ => none
  | .error err => some err

theorem refusal?_map {α β : Type} (f : α → β) (x : Except Error α) :
    refusal? (x.map f) = refusal? x := by
  cases x <;> rfl

namespace Node

theorem nodesAll_eq_flatMap (ns : List Node) : nodesAll ns = ns.flatMap nodes := by
  induction ns with
  | nil => rfl
  | cons n rest ih => rw [nodesAll, List.flatMap_cons, ih]

/-- The text of a child, empty if there is none. -/
def textOfChild (n : Node) (index : Nat) : Text := (n.children[index]?.map text).getD []

/-- What is wrong with a node by itself, if it is a literal or a pattern. -/
def fault? [Platform] (n : Node) : Option Error :=
  if n.name = "literal".toText then
    match Literal.value? (n.textOfChild 0) with
    | some _ => none
    | none => some (.badLiteral (n.textOfChild 0) n.start)
  else if n.name = "regex".toText then
    refusal? (Regex.Pattern.ofWritten (Literal.unescape (Literal.inside (n.textOfChild 1))) (n.textOfChild 2))
  else none

/-- The first of the literals and patterns of a tree that is wrong, in the order of the text. -/
def firstFault? [Platform] (n : Node) : Option Error := n.nodes.findSome? fault?

/-- The rule that a node names, if it is a reference. -/
def target? (n : Node) : Option Text :=
  if n.name = "reference".toText then some ((n.children[0]?.map labelText).getD []) else none

/-- The rules that the references of a tree name, in the order of the text. -/
def targets (n : Node) : List Text := n.nodes.filterMap target?

end Node

namespace Syntax

open Store

/-! ## What is wrong with a phrase -/

/-- The parts whose nodes are literals, patterns and references. -/
def Part.isElement : Part → Bool
  | literal | regex | reference => true
  | _ => false

theorem Part.name_of_not_element {p : Part} (h : p.isElement = false) :
    p.name ≠ "literal".toText ∧ p.name ≠ "regex".toText ∧ p.name ≠ "reference".toText := by
  revert h
  cases p <;> decide

/-- The result is refused for the first fault in the nodes, or it is the list of what their
references name. -/
structure Reports [Platform] (ns : List Node) (result : Except Error (List Text)) : Prop where
  fault_eq : (Node.nodesAll ns).findSome? Node.fault? = refusal? result
  targets_eq : ∀ {ts}, result = .ok ts → (Node.nodesAll ns).filterMap Node.target? = ts

/-- Two results one after the other, with what both name. -/
def andThen (x y : Except Error (List Text)) : Except Error (List Text) := do
  let ts ← x
  return ts ++ (← y)

theorem andThen_nil (x : Except Error (List Text)) : andThen x (.ok []) = x := by
  cases x with
  | error err => rfl
  | ok ts => exact congrArg Except.ok (List.append_nil ts)

theorem ok_nil_andThen (x : Except Error (List Text)) : andThen (.ok []) x = x := by
  cases x <;> rfl

section Reports

variable {whole : Text} {ids : Part → ExprId} {ns ms : List Node} {m : Node}
  {x y : Except Error (List Text)}

theorem reports_nil [Platform] : Reports [] (.ok []) := ⟨rfl, fun h => Except.ok.inj h⟩

theorem Reports.append [Platform] (h : Reports ns x) (h' : Reports ms y) : Reports (ns ++ ms)
    (andThen x y) := by
  obtain ⟨hfault, htargets⟩ := h
  obtain ⟨hfault', htargets'⟩ := h'
  rw [Node.nodesAll_eq_flatMap] at hfault htargets hfault' htargets'
  refine ⟨?_, fun {ts} hts => ?_⟩
  · rw [Node.nodesAll_eq_flatMap, List.flatMap_append, List.findSome?_append, hfault, hfault']
    cases x <;> cases y <;> rfl
  · obtain ⟨first, hfirst, hmore⟩ := bind_eq_ok hts
    obtain ⟨more, hmore, hall⟩ := bind_eq_ok hmore
    rw [Node.nodesAll_eq_flatMap, List.flatMap_append, List.filterMap_append, htargets hfirst, htargets' hmore]
    exact Except.ok.inj hall

/-- What a tree reports, by the node at its root. -/
theorem reports_singleton [Platform] :
    Reports [m] x ↔ m.firstFault? = refusal? x ∧ ∀ {ts}, x = .ok ts → m.targets = ts := by
  have hnodes : Node.nodesAll [m] = m.nodes := by rw [Node.nodesAll_eq_flatMap, List.flatMap_singleton]
  constructor
  · rintro ⟨hfault, htargets⟩
    rw [hnodes] at hfault htargets
    exact ⟨hfault, htargets⟩
  · rintro ⟨hfault, htargets⟩
    exact ⟨hnodes ▸ hfault, hnodes ▸ htargets⟩

/-- A node that is no literal, pattern or reference adds nothing to what its children report,
behind other nodes. -/
theorem Reports.behind [Platform] (hfault : m.fault? = none) (htarget : m.target? = none)
    (h : Reports (ns ++ m.children) x) : Reports (ns ++ [m]) x := by
  have hnodes : Node.nodesAll (ns ++ [m]) = Node.nodesAll ns ++ m :: Node.nodesAll m.children := by
    simp [Node.nodesAll_eq_flatMap, Node.nodes_eq m]
  have hsame : Node.nodesAll (ns ++ m.children) = Node.nodesAll ns ++ Node.nodesAll m.children := by
    simp [Node.nodesAll_eq_flatMap]
  obtain ⟨hfaults, htargets⟩ := h
  rw [hsame] at hfaults htargets
  refine ⟨?_, fun hts => ?_⟩
  · rw [hnodes, ← hfaults, List.findSome?_append, List.findSome?_append, List.findSome?_cons, hfault]
  · rw [hnodes, ← htargets hts, List.filterMap_append, List.filterMap_append, List.filterMap_cons, htarget]

/-- A node below which there is nothing to add reports what it is itself. -/
theorem Reports.element [Platform] (h : Reports m.children (.ok []))
    (hfault : m.fault? = refusal? x) (htarget : ∀ {ts}, x = .ok ts → m.target?.toList = ts) :
    Reports [m] x := by
  have hnodes : Node.nodesAll [m] = m :: Node.nodesAll m.children := by
    rw [Node.nodesAll, Node.nodesAll, List.append_nil, Node.nodes_eq]
  refine ⟨?_, fun hts => ?_⟩
  · rw [hnodes, List.findSome?_cons, hfault, h.fault_eq]
    cases x <;> rfl
  · rw [hnodes, List.filterMap_cons, h.targets_eq rfl, ← htarget hts]
    cases m.target? <;> rfl

theorem Reports.part [Platform] {p : Part} (hp : p.isElement = false) (h : Reports ns x)
    (n length : Nat) :
    Reports [nodeAt whole ids p n length ns] x := by
  obtain ⟨hliteral, hregex, hreference⟩ := p.name_of_not_element hp
  have hfault : (nodeAt whole ids p n length ns).fault? = none := by
    rw [Node.fault?, nodeAt, if_neg hliteral, if_neg hregex]
  have htarget : (nodeAt whole ids p n length ns).target? = none := by
    rw [Node.target?, nodeAt, if_neg hreference]
  have hnode : Reports ([] ++ [nodeAt whole ids p n length ns]) x := .behind hfault htarget h
  exact hnode

theorem reports_leaf [Platform] (whole : Text) (ids : Part → ExprId) {p : Part}
    (hp : p.isElement = false) (n length : Nat) :
    Reports [nodeAt whole ids p n length []] (.ok []) :=
  .part hp reports_nil n length

theorem Reports.leaf [Platform] {p : Part} (hp : p.isElement = false) (h : Reports ns x)
    (n length : Nat) :
    Reports (nodeAt whole ids p n length [] :: ns) x := by
  rw [← ok_nil_andThen x]
  exact (reports_leaf whole ids hp n length).append h

theorem reports_layout [Platform] (whole : Text) (ids : Part → ExprId) (layout : Layout) (n : Nat) :
    Reports [layoutNode whole ids layout n] (.ok []) := by
  have hblanks : ∀ (layout : Layout) (n : Nat),
      Reports (nodesFrom (blankNode whole ids) Blank.text n layout) (.ok []) := by
    intro layout
    induction layout with
    | nil => exact fun _ => reports_nil
    | cons b rest ih =>
      intro n
      have hblank : Reports [blankNode whole ids b n] (.ok []) := by
        refine .part rfl (reports_leaf whole ids ?_ n b.text.length) n b.text.length
        cases b <;> rfl
      exact hblank.append (ih (n + b.text.length))
  exact .part rfl (hblanks layout n) n _

theorem reports_token [Platform] {p token : Part} (hp : p.isElement = false)
    (htoken : token.isElement = false) (text : Text) (after : Layout) (n : Nat) :
    Reports [tokenNode whole ids p token text after n] (.ok []) :=
  .part hp (.leaf htoken (reports_layout whole ids after _) n _) n _

/-- The terms of an alternative report what they do one by one. -/
theorem Reports.terms [Platform] (h : Reports ns x) (n length : Nat) :
    Reports [termsNode whole ids n length ns] x := by
  unfold termsNode
  split
  · exact h
  · refine .part rfl ?_ n length
    rw [← List.take_append_drop 1 ns] at h
    exact .behind rfl rfl h

end Reports

/-- The rules that references in what a spelling stands for name. -/
def Meaning.targets : {r : Rank} → Meaning r → List Text
  | .atom, p | .term, p | .expression, p => Phrase.targets p
  | .terms, ps | .branches, ps => Phrase.targetsAll ps

theorem targets_sequenceOf (ps : List Phrase) : (sequenceOf ps).targets = Phrase.targetsAll ps := by
  match ps with
  | [] | _ :: _ :: _ => simp [sequenceOf, Phrase.targets]
  | [p] => simp [sequenceOf, Phrase.targetsAll]

theorem targets_unary (wrap : Wrap) (p : Phrase) : (Phrase.unary wrap p).targets = p.targets := by
  rw [Phrase.targets]

theorem targetsAll_singleton (p : Phrase) : Phrase.targetsAll [p] = p.targets := by
  simp [Phrase.targetsAll]

theorem targetsAll_cons (p : Phrase) (ps : List Phrase) :
    Phrase.targetsAll (p :: ps) = p.targets ++ Phrase.targetsAll ps := by
  rw [Phrase.targetsAll]

theorem targetsAll_branch (ps : List Phrase) : Phrase.targetsAll [sequenceOf ps] = Phrase.targetsAll ps := by
  rw [targetsAll_singleton, targets_sequenceOf]

theorem targetsAll_branches (ps qs : List Phrase) :
    Phrase.targetsAll (sequenceOf ps :: qs) = Phrase.targetsAll ps ++ Phrase.targetsAll qs := by
  rw [targetsAll_cons, targets_sequenceOf]

theorem targets_choice (ps qs : List Phrase) :
    (Phrase.compound .choice (sequenceOf ps :: qs)).targets = Phrase.targetsAll ps ++ Phrase.targetsAll qs := by
  rw [Phrase.targets, targetsAll_branches]

theorem Reports.map [Platform] {α β : Type} {ns : List Node} {f : α → β} {g : β → List Text}
    {p : α → List Text} (hf : ∀ a, g (f a) = p a) {x : Except Error α} (h : Reports ns (x.map p)) :
    Reports ns ((x.map f).map g) := by
  cases x with
  | error err => exact h
  | ok a =>
    change Reports ns (.ok (g (f a)))
    rw [hf]
    exact h

theorem Reports.map_append [Platform] {α β γ : Type} {ns ms : List Node} {f : α → β → γ}
    {g : γ → List Text} {p : α → List Text} {q : β → List Text} (hf : ∀ a b, g (f a b) = p a ++ q b)
    {x : Except Error α} {y : Except Error β} (h : Reports ns (x.map p)) (h' : Reports ms (y.map q)) :
    Reports (ns ++ ms) ((do return f (← x) (← y) : Except Error γ).map g) := by
  have hall := h.append h'
  rcases x with err | a
  · exact hall
  rcases y with err | b
  · exact hall
  · change Reports (ns ++ ms) (.ok (g (f a b)))
    rw [hf]
    exact hall

section

variable {whole : Text} {ids : Part → ExprId}

/-- A literal reports that it spells no text where it begins. -/
theorem reports_literal [Platform] {n : Nat} {quoted : Quoted} {after : Layout} {rest : Text}
    (h : whole.drop n = quoted.text ++ rest) :
    Reports [tokenNode whole ids .literal .quoted quoted.text after n]
      ((quoted.literalPhrase n).map Phrase.targets) := by
  have hchildren : Reports [nodeAt whole ids .quoted n quoted.text.length [],
      layoutNode whole ids after (n + quoted.text.length)] (.ok []) :=
    .leaf rfl (reports_layout whole ids after _) n _
  have htext := text_nodeAt ids h .quoted []
  have hwritten : (tokenNode whole ids .literal .quoted quoted.text after n).textOfChild 0 = quoted.text := htext
  refine .element hchildren ?_ fun hts => ?_
  · rw [Node.fault?, hwritten, refusal?_map, Quoted.literalPhrase]
    refine (if_pos rfl).trans ?_
    cases Literal.value? quoted.text <;> rfl
  · obtain ⟨p, hp, rfl⟩ := map_eq_ok hts
    rw [Quoted.literalPhrase] at hp
    split at hp
    · cases hp
      rw [Phrase.targets]
      rfl
    · cases hp

/-- A pattern reports that it is rejected. -/
theorem reports_regex [Platform] {n length : Nat} {quoted : Quoted} {flags : FlagText}
    {after : Layout} {rest : Text}
    (h : whole.drop n = .char '~' :: (quoted.text ++ (flags.text ++ rest))) :
    Reports [nodeAt whole ids .regex n length [nodeAt whole ids .tilde n 1 [],
      nodeAt whole ids .quoted (n + 1) quoted.text.length [],
      nodeAt whole ids .flags (n + 1 + quoted.text.length) flags.text.length [],
      layoutNode whole ids after (n + 1 + quoted.text.length + flags.text.length)]]
      ((quoted.regexPhrase flags).map Phrase.targets) := by
  have hquoted : whole.drop (n + 1) = quoted.text ++ (flags.text ++ rest) :=
    drop_append (show whole.drop n = [.char '~'] ++ _ from h)
  have htext := text_nodeAt ids hquoted .quoted []
  have hflags := text_nodeAt ids (drop_append hquoted) .flags []
  have hchildren : Reports [nodeAt whole ids .tilde n 1 [],
      nodeAt whole ids .quoted (n + 1) quoted.text.length [],
      nodeAt whole ids .flags (n + 1 + quoted.text.length) flags.text.length [],
      layoutNode whole ids after (n + 1 + quoted.text.length + flags.text.length)] (.ok []) :=
    .leaf rfl (.leaf rfl (.leaf rfl (reports_layout whole ids after _) _ _) _ _) n 1
  refine .element hchildren ?_ fun hts => ?_
  · rw [Node.fault?]
    refine (if_neg (show Part.regex.name ≠ "literal".toText by decide)).trans ((if_pos rfl).trans ?_)
    simp only [Node.textOfChild, nodeAt, List.getElem?_cons_succ, List.getElem?_cons_zero, Option.map_some,
      Option.getD_some] at htext hflags ⊢
    rw [htext, hflags, inside_quoted, refusal?_map, Quoted.regexPhrase, refusal?_map]
  · obtain ⟨p, hp, rfl⟩ := map_eq_ok hts
    obtain ⟨pattern, -, rfl⟩ := map_eq_ok hp
    rw [Phrase.targets]
    rfl

/-- A mark and its term report what the term does. -/
theorem reports_marked [Platform] {p mark : Part} (hp : p.isElement = false)
    (hmark : mark.isElement = false) {t : Spelling .term} {x : Except Error (List Text)} {n : Nat}
    (h : Reports [t.node whole ids (n + 1)] x) (length : Nat) :
    Reports [nodeAt whole ids p n length [nodeAt whole ids mark n 1 [], t.node whole ids (n + 1),
      layoutNode whole ids [] (n + 1 + t.text.length)]] x := by
  have hall := h.append (reports_layout whole ids [] (n + 1 + t.text.length))
  rw [andThen_nil] at hall
  exact .part hp (.leaf hmark hall n 1) n length

/-- A slash and the terms of an alternative report what the terms do. -/
theorem reports_branch [Platform] (before : Layout) {ts : Spelling .terms}
    {x : Except Error (List Text)} {n n' : Nat} (h : Reports (ts.node whole ids n') x)
    (length : Nat) (hn : n' = n + 1 + (Layout.text before).length) :
    Reports [branchNode whole ids before length n (ts.node whole ids n')] x := by
  subst hn
  have hterms : Reports [alternativeNode whole ids (n + 1 + (Layout.text before).length) length
      (ts.node whole ids _)] x := .part rfl (h.terms _ length) _ length
  have hall := (reports_layout whole ids before (n + 1)).append hterms
  rw [ok_nil_andThen] at hall
  exact .part rfl (.leaf rfl hall n 1) n _

/-- The tree of a spelling reports what the spelling stands for. -/
theorem reports_node [Platform] {r : Rank} (c : Spelling r) : ∀ {n : Nat} {rest : Text},
    whole.drop n = c.text ++ rest →
    Reports (Shape.toList (c.node whole ids n)) ((c.phrase n).map Meaning.targets) := by
  induction c with
  | reference label after =>
    intro n rest h
    rw [Spelling.text, List.append_assoc] at h
    have hlabel : Reports [tokenNode whole ids .label .labelText label.text after n] (.ok []) :=
      reports_token rfl rfl label.text after n
    have hend : ∀ k, Reports [nodeAt whole ids .notEquals k 0 []] (.ok []) :=
      fun k => reports_leaf whole ids rfl k 0
    refine .part rfl (.element (hlabel.append (hend _)) rfl fun hts => ?_) n _
    rw [← Except.ok.inj hts, Meaning.targets, Phrase.targets]
    exact congrArg (fun t => [t]) (text_nodeAt ids h .labelText [])
  | literal quoted after =>
    intro n rest h
    rw [Spelling.text, List.append_assoc] at h
    exact .part rfl (reports_literal h) n _
  | regex quoted flags after =>
    intro n rest h
    rw [Spelling.text, List.cons_append, List.append_assoc, List.append_assoc] at h
    exact .part rfl (reports_regex h) n _
  | group before inner after ih =>
    intro n rest h
    rw [Spelling.text, List.cons_append, List.append_assoc, List.append_assoc] at h
    have hbefore : whole.drop (n + 1) = _ := drop_append (show whole.drop n = [.char '('] ++ _ from h)
    have hclosing : ∀ k, Reports [nodeAt whole ids .closing k 1 [], layoutNode whole ids after (k + 1)] (.ok []) :=
      fun k => .leaf rfl (reports_layout whole ids after (k + 1)) k 1
    have hinner := (ih (drop_append hbefore)).append
      (hclosing (n + 1 + (Layout.text before).length + inner.text.length))
    have hall := (reports_layout whole ids before (n + 1)).append hinner
    rw [andThen_nil, ok_nil_andThen] at hall
    exact .part rfl (.part rfl (.leaf rfl hall n 1) n _) n _
  | negation member ih | lookahead member ih =>
    intro n rest h
    have hmember := ih (drop_append (show whole.drop n = [_] ++ _ from h))
    exact .part rfl (reports_marked rfl rfl (hmember.map (targets_unary _)) _) n _
  | quantified member quantifier after ih =>
    intro n rest h
    rw [Spelling.text, List.append_assoc, List.cons_append] at h
    have hsign : ∀ k, Reports [tokenNode whole ids .quantifier .quantifierSign [quantifier.symbol] after k]
        (.ok []) := fun k => reports_token rfl rfl [quantifier.symbol] after k
    have hall := ((ih h).map (targets_unary quantifier.wrap)).append (hsign (n + member.text.length))
    rw [andThen_nil] at hall
    exact .part rfl (.part rfl hall n _) n _
  | plain atom ih =>
    intro n rest h
    exact .part rfl (ih h) n _
  | last term ih =>
    intro n rest h
    exact (ih h).map targetsAll_singleton
  | more term more ih ih' =>
    intro n rest h
    rw [Spelling.text, List.append_assoc] at h
    exact (ih h).map_append targetsAll_cons (ih' (drop_append h))
  | lastBranch before terms ih =>
    intro n rest h
    rw [Spelling.text, List.cons_append, List.append_assoc] at h
    have hbefore : whole.drop (n + 1) = _ := drop_append (show whole.drop n = [.char '/'] ++ _ from h)
    exact reports_branch before ((ih (drop_append hbefore)).map targetsAll_branch) terms.text.length rfl
  | moreBranches before terms more ih ih' =>
    intro n rest h
    rw [Spelling.text, List.cons_append, List.append_assoc, List.append_assoc] at h
    have hbefore : whole.drop (n + 1) = _ := drop_append (show whole.drop n = [.char '/'] ++ _ from h)
    have hterms := reports_branch before (ih (drop_append hbefore)) terms.text.length rfl
    exact hterms.map_append targetsAll_branches (ih' (drop_append (drop_append hbefore)))
  | single terms ih =>
    intro n rest h
    exact .part rfl (((ih h).map targets_sequenceOf).terms n _) n _
  | choice first more ih ih' =>
    intro n rest h
    rw [Spelling.text, List.append_assoc] at h
    have hfirst : Reports [alternativeNode whole ids n first.text.length (first.node whole ids n)] _ :=
      .part rfl ((ih h).terms n _) n _
    have hmore : ∀ length, Reports [nodeAt whole ids .orTerms (n + first.text.length) length
      (more.node whole ids (n + first.text.length))] _ := .part rfl (ih' (drop_append h)) _
    exact .part rfl (.part rfl (hfirst.map_append targets_choice (hmore _)) n _) n _

/-! ## What is wrong with rules -/

/-- The tree of a rule reports what the rule stands for. -/
theorem reports_rule [Platform] (ids : Part → ExprId) (r : RuleSpelling) {n : Nat} {rest : Text}
    (h : whole.drop n = r.text ++ rest) :
    Reports [r.node whole ids n] ((r.node whole ids n).toDefinition.map fun d => d.body.targets) := by
  rw [toDefinition_node r h]
  rw [RuleSpelling.text, List.append_assoc, List.append_assoc, List.cons_append, List.append_assoc] at h
  have hequals := drop_append (drop_append h)
  have hafter : whole.drop (n + r.label.text.length + (Layout.text r.afterLabel).length + 1) = _ :=
    drop_append (show whole.drop _ = [.char '='] ++ _ from hequals)
  have hlabel : Reports [tokenNode whole ids .label .labelText r.label.text r.afterLabel n] (.ok []) :=
    reports_token rfl rfl r.label.text r.afterLabel n
  have hsign : Reports [tokenNode whole ids .equals .equalsSign ['='] r.afterEquals
      (n + r.label.text.length + (Layout.text r.afterLabel).length)] (.ok []) :=
    reports_token rfl rfl ['='] r.afterEquals _
  have hbody : Reports (Shape.toList (r.body.node whole ids _)) _ := reports_node r.body (drop_append hafter)
  have hall := hlabel.append (hsign.append hbody)
  rw [ok_nil_andThen, ok_nil_andThen] at hall
  exact .map (fun _ => rfl) (.part rfl hall n _)

theorem reports_rules [Platform] (ids : Part → ExprId) : ∀ {rs : List RuleSpelling} {n : Nat}
    {rest : Text},
    whole.drop n = rs.flatMap RuleSpelling.text ++ rest →
    ∀ m ∈ nodesFrom (RuleSpelling.node whole ids) RuleSpelling.text n rs,
      Reports [m] (m.toDefinition.map fun d => d.body.targets)
  | [], _, _, _ => nofun
  | r :: rs, _, _, h => by
    rw [List.flatMap_cons, List.append_assoc] at h
    exact List.forall_mem_cons.2 ⟨reports_rule ids r h, reports_rules ids (drop_append h)⟩

end

end Syntax

/-! ## What is wrong with a definition text -/

namespace Node

/-- What is wrong with a rule after others: something in it, or it has the label of one of
them. -/
def wrongAfter? [Platform] (before : List Node) (r : Node) : Option Error :=
  match r.firstFault? with
  | some err => some err
  | none => if (before.map ruleLabel).contains r.ruleLabel then some (.duplicateRule r.ruleLabel) else none

/-- What is wrong with the first rule that is wrong. -/
def firstWrong? [Platform] (rules : List Node) : Option Error :=
  rules.zipIdx.findSome? fun x => wrongAfter? (rules.take x.2) x.1

/-- Rules that come after others are refused for what is wrong with the first of them that is
wrong. -/
theorem refusal?_toDefinitionsAfter [Platform] : ∀ {rules front : List Node} {labels : List Text},
    (∀ l, l ∈ labels ↔ l ∈ front.map ruleLabel) → (∀ r ∈ rules, r.firstFault? = refusal? r.toDefinition) →
    refusal? (toDefinitionsAfter labels rules) =
      (rules.zipIdx front.length).findSome? fun x => wrongAfter? ((front ++ rules).take x.2) x.1
  | [], _, _, _, _ => rfl
  | r :: rest, front, labels, hlabels, hrules => by
    obtain ⟨hr, hrest⟩ := List.forall_mem_cons.1 hrules
    rw [List.zipIdx_cons, List.findSome?_cons, List.take_left, toDefinitionsAfter, wrongAfter?, hr]
    rcases hd : r.toDefinition with err | d
    · rfl
    have hlabel : d.label = r.ruleLabel := (toDefinition_eq_ok hd).1
    have hmore : ∀ l, l ∈ d.label :: labels ↔ l ∈ (front ++ [r]).map ruleLabel := by
      intro l
      rw [List.map_append, List.mem_append, List.mem_cons, hlabels l, List.map_singleton,
        List.mem_singleton, or_comm, hlabel]
    have ih := refusal?_toDefinitionsAfter hmore hrest
    rw [List.length_append, List.append_assoc, List.singleton_append] at ih
    have hcontains : labels.contains d.label = (front.map ruleLabel).contains r.ruleLabel := by
      rw [Bool.eq_iff_iff, List.contains_iff_mem, List.contains_iff_mem, hlabel, hlabels]
    by_cases hold : (front.map ruleLabel).contains r.ruleLabel = true
    · simp only [bind, Except.bind, refusal?, hcontains, if_pos hold]
      rw [hlabel]
    · simp only [bind, Except.bind, hcontains, if_neg hold]
      refine Eq.trans ?_ ih
      cases toDefinitionsAfter (d.label :: labels) rest <;> rfl

/-- Rules that are read are read one by one. -/
theorem forall₂_toDefinition [Platform] : ∀ {labels : List Text} {rules : List Node}
    {ds : List Definition},
    toDefinitionsAfter labels rules = .ok ds → List.Forall₂ (fun r d => r.toDefinition = .ok d) rules ds
  | _, [], _, h => by
    cases h
    exact .nil
  | _, r :: rest, _, h => by
    obtain ⟨d, hd, h⟩ := bind_eq_ok h
    split at h
    · cases h
    · obtain ⟨others, hothers, h⟩ := bind_eq_ok h
      cases h
      exact .cons hd (forall₂_toDefinition hothers)

end Node

end Pegboard
