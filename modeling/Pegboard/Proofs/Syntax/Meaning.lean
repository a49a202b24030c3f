import Pegboard.Definition.Reader
import Pegboard.Proofs.Syntax.Tree

/-!
# What spellings stand for

A spelling stands for a phrase, or for several if it is the terms of an alternative or the
branches of a choice.  It may also stand for nothing, if a literal in it spells no text or
a pattern is rejected.  `Spelling.phrase` says so without a tree.

Reading the tree of a spelling gives what the spelling stands for (`read_node`): the reader
never meets a node that it does not expect.
-/

namespace Pegboard.Syntax

/-- What a spelling stands for: one phrase, or several. -/
@[reducible] def Meaning : Rank → Type
  | .terms | .branches => List Phrase
  | .atom | .term | .expression => Phrase

/-- The phrase of an alternative: a sequence, or the only one of its terms. -/
def sequenceOf : List Phrase → Phrase
  | [p] => p
  | ps => .compound .sequence ps

variable [Platform]

/-- What a literal at an offset stands for. -/
def Quoted.literalPhrase (q : Quoted) (n : Nat) : Except Error Phrase :=
  match Literal.value? q.text with
  | some text => .ok (.literal text)
  | none => .error (.badLiteral q.text n)

/-- What a pattern stands for. -/
def Quoted.regexPhrase (q : Quoted) (flags : FlagText) : Except Error Phrase :=
  (Regex.Pattern.ofWritten (Literal.unescape q.body) flags.text).map .regex

namespace Spelling

/-- What a spelling at an offset stands for. -/
def phrase : {r : Rank} → Spelling r → Nat → Except Error (Meaning r)
  | _, reference label _, _ => .ok (.reference label.text)
  | _, literal quoted _, n => quoted.literalPhrase n
  | _, regex quoted flags _, _ => quoted.regexPhrase flags
  | _, group before inner _, n => inner.phrase (n + 1 + (Layout.text before).length)
  | _, negation member, n => (member.phrase (n + 1)).map (.unary .negation)
  | _, lookahead member, n => (member.phrase (n + 1)).map (.unary .lookahead)
  | _, quantified member quantifier _, n => (member.phrase n).map (.unary quantifier.wrap)
  | _, plain atom, n => atom.phrase n
  | _, last term, n => (term.phrase n).map fun p => [p]
  | _, more term rest, n => do
    let first ← term.phrase n
    return first :: (← rest.phrase (n + term.text.length))
  | _, lastBranch before terms, n =>
    (terms.phrase (n + 1 + (Layout.text before).length)).map fun ps => [sequenceOf ps]
  | _, moreBranches before terms rest, n => do
    let first ← terms.phrase (n + 1 + (Layout.text before).length)
    return sequenceOf first ::
      (← rest.phrase (n + 1 + (Layout.text before).length + terms.text.length))
  | _, single terms, n => (terms.phrase n).map sequenceOf
  | _, choice first rest, n => do
    let first' ← first.phrase n
    return .compound .choice (sequenceOf first' :: (← rest.phrase (n + first.text.length)))

/-- What a spelling stands for, if it stands for something.  Where it is does not matter. -/
def meaning? : {r : Rank} → Spelling r → Option (Meaning r)
  | _, reference label _ => some (.reference label.text)
  | _, literal quoted _ => (Literal.value? quoted.text).map .literal
  | _, regex quoted flags _ => (quoted.regexPhrase flags).toOption
  | _, group _ inner _ => inner.meaning?
  | _, negation member => member.meaning?.map (.unary .negation)
  | _, lookahead member => member.meaning?.map (.unary .lookahead)
  | _, quantified member quantifier _ => member.meaning?.map (.unary quantifier.wrap)
  | _, plain atom => atom.meaning?
  | _, last term => term.meaning?.map fun p => [p]
  | _, more term rest => term.meaning?.bind fun p => rest.meaning?.map (p :: ·)
  | _, lastBranch _ terms => terms.meaning?.map fun ps => [sequenceOf ps]
  | _, moreBranches _ terms rest =>
    terms.meaning?.bind fun ps => rest.meaning?.map (sequenceOf ps :: ·)
  | _, single terms => terms.meaning?.map sequenceOf
  | _, choice first rest =>
    first.meaning?.bind fun ps => rest.meaning?.map fun qs => .compound .choice (sequenceOf ps :: qs)

omit [Platform] in
theorem toOption_map {α β : Type} (f : α → β) (x : Except Error α) :
    (x.map f).toOption = x.toOption.map f := by
  cases x <;> rfl

omit [Platform] in
theorem toOption_bind {α β : Type} (f : α → Except Error β) (x : Except Error α) :
    (x >>= f).toOption = x.toOption.bind fun a => (f a).toOption := by
  cases x <;> rfl

theorem toOption_phrase : {r : Rank} → (c : Spelling r) → (n : Nat) →
    (c.phrase n).toOption = c.meaning?
  | _, reference _ _, _ => rfl
  | _, literal quoted _, _ => by
    rw [phrase, Quoted.literalPhrase, meaning?]
    cases Literal.value? quoted.text <;> rfl
  | _, regex _ _ _, _ => rfl
  | _, group _ inner _, _ => toOption_phrase inner _
  | _, negation member, _ => by rw [phrase, toOption_map, toOption_phrase member, meaning?]
  | _, lookahead member, _ => by rw [phrase, toOption_map, toOption_phrase member, meaning?]
  | _, quantified member _ _, _ => by rw [phrase, toOption_map, toOption_phrase member, meaning?]
  | _, plain atom, _ => toOption_phrase atom _
  | _, last term, _ => by rw [phrase, toOption_map, toOption_phrase term, meaning?]
  | _, more term rest, n => by
    rw [phrase, toOption_bind, toOption_phrase term, meaning?, ← toOption_phrase rest (n + term.text.length)]
    cases term.meaning? <;> rcases rest.phrase (n + term.text.length) with err | ps <;> rfl
  | _, lastBranch _ terms, _ => by rw [phrase, toOption_map, toOption_phrase terms, meaning?]
  | _, moreBranches before terms rest, n => by
    rw [phrase, toOption_bind, toOption_phrase terms, meaning?,
      ← toOption_phrase rest (n + 1 + (Layout.text before).length + terms.text.length)]
    cases terms.meaning? <;>
      rcases rest.phrase (n + 1 + (Layout.text before).length + terms.text.length) with err | ps <;> rfl
  | _, single terms, _ => by rw [phrase, toOption_map, toOption_phrase terms, meaning?]
  | _, choice first rest, n => by
    rw [phrase, toOption_bind, toOption_phrase first, meaning?, ← toOption_phrase rest (n + first.text.length)]
    cases first.meaning? <;> rcases rest.phrase (n + first.text.length) with err | ps <;> rfl

end Spelling

/-- What a rule stands for, if it stands for something. -/
def RuleSpelling.meaning? (r : RuleSpelling) : Option Definition :=
  r.body.meaning?.map fun p => ⟨r.label.text, p⟩

/-- What a rule at an offset stands for. -/
def RuleSpelling.definition (r : RuleSpelling) (n : Nat) : Except Error Definition :=
  (r.body.phrase (n + r.label.text.length + (Layout.text r.afterLabel).length + 1 +
    (Layout.text r.afterEquals).length)).map fun p => ⟨r.label.text, p⟩

/-- What rules at an offset stand for, given the labels of the ones before. -/
def definitionsAfter (labels : List Text) : List RuleSpelling → Nat → Except Error (List Definition)
  | [], _ => .ok []
  | r :: rest, n => do
    let d ← r.definition n
    if labels.contains d.label then .error (.duplicateRule d.label)
    else return d :: (← definitionsAfter (d.label :: labels) rest (n + r.text.length))

/-- What a definition text stands for. -/
def RulesSpelling.definitions (r : RulesSpelling) : Except Error (List Definition) :=
  definitionsAfter [] r.rules (Layout.text r.before).length

theorem RuleSpelling.toOption_definition (r : RuleSpelling) (n : Nat) :
    (r.definition n).toOption = r.meaning? := by
  rw [definition, Spelling.toOption_map, Spelling.toOption_phrase, meaning?]

theorem RuleSpelling.definition_eq_ok {r : RuleSpelling} {n : Nat} {d : Definition} :
    r.definition n = .ok d ↔ r.meaning? = some d := by
  rw [← r.toOption_definition n]
  cases r.definition n <;> simp [Except.toOption]

/-- Rules stand for definitions one by one, with labels that are distinct and none of those
before. -/
theorem definitionsAfter_eq_ok : ∀ {rs : List RuleSpelling} {labels : List Text} {n : Nat}
    {ds : List Definition}, definitionsAfter labels rs n = .ok ds ↔
      rs.map RuleSpelling.meaning? = ds.map some ∧ (ds.map Definition.label).Nodup ∧
        ∀ d ∈ ds, d.label ∉ labels := by
  intro rs
  induction rs with
  | nil =>
    intro labels n ds
    rw [definitionsAfter]
    cases ds <;> simp
  | cons r rs ih =>
    intro labels n ds
    rw [definitionsAfter, List.map_cons]
    rcases hr : r.definition n with err | d
    · -- the rule stands for nothing, so nothing is the list of what the rules stand for
      have hnone : r.meaning? = none := by rw [← r.toOption_definition n, hr]; rfl
      rw [hnone]
      cases ds <;> simp [bind, Except.bind]
    · rw [RuleSpelling.definition_eq_ok.1 hr]
      have hmore : ∀ {d' : Definition} {ds' : List Definition},
          (definitionsAfter (d.label :: labels) rs (n + r.text.length) >>= fun others =>
            Except.ok (d :: others)) = .ok (d' :: ds') ↔
          d = d' ∧ definitionsAfter (d.label :: labels) rs (n + r.text.length) = .ok ds' := by
        intro d' ds'
        rcases definitionsAfter (d.label :: labels) rs (n + r.text.length) with err | others <;>
          simp [bind, Except.bind]
      change (if labels.contains d.label then _ else _) = _ ↔ _
      cases ds with
      | nil =>
        split
        · simp
        · rcases definitionsAfter (d.label :: labels) rs (n + r.text.length) with err | others <;>
            simp [bind, Except.bind, pure, Except.pure]
      | cons d' ds' =>
        split
        · next hlabel =>
          rw [List.contains_iff_mem] at hlabel
          simp only [reduceCtorEq, false_iff, List.map_cons, List.cons.injEq, Option.some.injEq]
          rintro ⟨⟨rfl, -⟩, -, hlabels⟩
          exact hlabels d List.mem_cons_self hlabel
        · next hlabel =>
          rw [List.contains_iff_mem] at hlabel
          refine hmore.trans ?_
          rw [ih]
          simp only [List.map_cons, List.cons.injEq, Option.some.injEq, List.nodup_cons, List.mem_map,
            List.mem_cons, not_exists, not_and, not_or, forall_eq_or_imp]
          constructor
          · rintro ⟨rfl, hrest, hnodup, hlabels⟩
            exact ⟨⟨rfl, hrest⟩, ⟨fun e he => (hlabels e he).1, hnodup⟩, hlabel, fun e he => (hlabels e he).2⟩
          · rintro ⟨⟨rfl, hrest⟩, ⟨hother, hnodup⟩, -, hlabels⟩
            exact ⟨rfl, hrest, hnodup, fun e he => ⟨hother e he, hlabels e he⟩⟩

/-- What a text stands for is what its rules stand for, with distinct labels. -/
theorem RulesSpelling.definitions_eq_ok {r : RulesSpelling} {ds : List Definition} :
    r.definitions = .ok ds ↔
      r.rules.map RuleSpelling.meaning? = ds.map some ∧ (ds.map Definition.label).Nodup := by
  rw [definitions, definitionsAfter_eq_ok]
  simp

/-! ## Reading the tree of a spelling -/

section

variable {whole : Text} {ids : Part → ExprId}

omit [Platform] in
theorem text_nodeAt (ids : Part → ExprId) {n : Nat} {text rest : Text} (h : whole.drop n = text ++ rest) (p : Part)
    (children : List Node) : (nodeAt whole ids p n text.length children).text = text := by
  rw [nodeAt, Node.text, Text.slice_natCast, List.drop_take, Nat.add_sub_cancel_left, h,
    List.take_left]

/-- A node of a construct with alternatives is read as its only child. -/
theorem toPhrase_option {p : Part} {c o : Construct} (hname : p.name = c.label) {child : Node}
    (ho : c.option? child.name = some o) (n length : Nat) :
    (nodeAt whole ids p n length [child]).toPhrase c = child.toPhrase o := by
  rw [Node.toPhrase.eq_def]
  dsimp only [nodeAt]
  rw [hname, if_neg (fun h => h rfl)]
  cases c with
  | expression | alternative | term | atom =>
    dsimp only
    rw [ho]
  | _ => cases ho

/-- A node with a first member and a node of the others is read as all of them. -/
theorem toPhrase_sequence (n length : Nat) (first more : Node) :
    (nodeAt whole ids .sequence n length [first, more]).toPhrase .sequence =
      (Node.toPhrases .term (first :: more.children)).map (.compound .sequence) := by
  obtain ⟨_, _, _, _, _, _, others⟩ := more
  rw [Node.toPhrase.eq_def, Node.toPhrases]
  dsimp only [nodeAt]
  rw [if_neg (fun h => h rfl)]
  rcases first.toPhrase .term with err | p
  · rfl
  · dsimp only [bind, Except.bind]
    rcases Node.toPhrases .term others with err | ps <;> rfl

theorem toPhrase_ored (n length : Nat) (first more : Node) :
    (nodeAt whole ids .ored n length [first, more]).toPhrase .ored =
      (do
        let p ← first.toPhrase .alternative
        return .compound .choice (p :: (← Node.toPhrases .orTerm more.children))) := by
  obtain ⟨_, _, _, _, _, _, others⟩ := more
  rw [Node.toPhrase.eq_def]
  dsimp only [nodeAt]
  rw [if_neg (fun h => h rfl)]

theorem toPhrase_third {p : Part} {c o : Construct}
    (hc : c = .orTerm ∧ o = .alternative ∨ c = .parenthesized ∧ o = .expression)
    (hname : p.name = c.label) (n length : Nat) (a b child : Node) (rest : List Node) :
    (nodeAt whole ids p n length (a :: b :: child :: rest)).toPhrase c = child.toPhrase o := by
  rw [Node.toPhrase.eq_def]
  dsimp only [nodeAt]
  rw [hname, if_neg (fun h => h rfl)]
  rcases hc with ⟨rfl, rfl⟩ | ⟨rfl, rfl⟩ <;> rfl

theorem toPhrase_marked {p : Part} {c : Construct} {wrap : Wrap}
    (hc : c = .notTerm ∧ wrap = .negation ∨ c = .lookaheadTerm ∧ wrap = .lookahead)
    (hname : p.name = c.label) (n length : Nat) (mark child : Node) (rest : List Node) :
    (nodeAt whole ids p n length (mark :: child :: rest)).toPhrase c =
      (child.toPhrase .term).map (.unary wrap) := by
  rw [Node.toPhrase.eq_def]
  dsimp only [nodeAt]
  rw [hname, if_neg (fun h => h rfl)]
  rcases hc with ⟨rfl, rfl⟩ | ⟨rfl, rfl⟩ <;> rcases child.toPhrase .term with err | q <;> rfl

theorem toPhrase_quantified {n m length : Nat} {child : Node} {q : Quantifier} {after : Layout}
    {rest : Text} (h : whole.drop m = q.symbol :: rest) :
    (nodeAt whole ids .quantified n length [child, tokenNode whole ids .quantifier .quantifierSign
      [q.symbol] after m]).toPhrase .quantified = (child.toPhrase .atom).map (.unary q.wrap) := by
  have hsymbol : (tokenNode whole ids .quantifier .quantifierSign [q.symbol] after m).toQuantifier =
      .ok [q.symbol] := by
    have htext := text_nodeAt ids (show whole.drop m = [q.symbol] ++ rest from h)
      .quantifierSign []
    exact congrArg Except.ok htext
  have hwrap : Node.wrapOf [q.symbol] = .ok q.wrap := by cases q <;> rfl
  rw [Node.toPhrase.eq_def]
  dsimp only [nodeAt]
  rw [if_neg (fun h => h rfl)]
  rcases child.toPhrase .atom with err | p
  · rfl
  · dsimp only [bind, Except.bind]
    rw [hsymbol]
    dsimp only
    rw [hwrap]
    rfl

theorem toPhrase_reference {n length : Nat} {label : Label} {after : Layout} {rest : Text}
    {more : List Node} (h : whole.drop n = label.text ++ rest) :
    (nodeAt whole ids .reference n length
      (tokenNode whole ids .label .labelText label.text after n :: more)).toPhrase .reference =
        .ok (.reference label.text) := by
  have hlabel : (tokenNode whole ids .label .labelText label.text after n).toLabel =
      .ok label.text := by
    have htext := text_nodeAt ids h .labelText []
    exact congrArg Except.ok htext
  rw [Node.toPhrase.eq_def]
  dsimp only [nodeAt]
  rw [if_neg (fun h => h rfl), hlabel]
  rfl

theorem toPhrase_literal {n : Nat} {quoted : Quoted} {after : Layout} {rest : Text}
    (h : whole.drop n = quoted.text ++ rest) :
    (tokenNode whole ids .literal .quoted quoted.text after n).toPhrase .literal =
      quoted.literalPhrase n := by
  have htext := text_nodeAt ids h .quoted []
  rw [Node.toPhrase.eq_def]
  dsimp only [tokenNode, nodeAt]
  rw [if_neg (fun h => h rfl), Node.literalPhrase, Node.childText]
  dsimp only [List.getElem?_cons_zero, bind, Except.bind]
  rw [nodeAt] at htext
  rw [htext]
  rfl

omit [Platform] in
theorem inside_quoted (quoted : Quoted) : Literal.inside quoted.text = quoted.body := by
  rw [Literal.inside, Quoted.text, List.drop_one, List.tail_cons, List.dropLast_concat]

theorem toPhrase_regex {n length : Nat} {quoted : Quoted} {flags : FlagText} {rest : Text}
    {layout : Node} (h : whole.drop n = .char '~' :: (quoted.text ++ (flags.text ++ rest))) :
    (nodeAt whole ids .regex n length [nodeAt whole ids .tilde n 1 [],
      nodeAt whole ids .quoted (n + 1) quoted.text.length [],
      nodeAt whole ids .flags (n + 1 + quoted.text.length) flags.text.length [], layout]).toPhrase
        .regex = quoted.regexPhrase flags := by
  have hquoted : whole.drop (n + 1) = quoted.text ++ (flags.text ++ rest) :=
    drop_append (show whole.drop n = [.char '~'] ++ _ from h)
  have htext := text_nodeAt ids hquoted .quoted []
  have hflags := text_nodeAt ids (drop_append hquoted) .flags []
  rw [Node.toPhrase.eq_def]
  dsimp only [nodeAt] at htext hflags ⊢
  rw [if_neg (fun h => h rfl), Node.regexPhrase, Node.childText, Node.childText]
  dsimp only [List.getElem?_cons_succ, List.getElem?_cons_zero, bind, Except.bind]
  rw [htext, hflags, inside_quoted, Quoted.regexPhrase]
  rcases Regex.Pattern.ofWritten (Literal.unescape quoted.body) flags.text with err | p <;> rfl

/-- The terms of an alternative are read one by one. -/
theorem toPhrase_terms {p : Part} {c : Construct} (hc : c = .expression ∨ c = .alternative)
    (hname : p.name = c.label) {nodes : List Node} (hne : nodes ≠ [])
    (hterms : ∀ node ∈ nodes, node.name = Part.term.name) (n k length : Nat) :
    (nodeAt whole ids p n length [termsNode whole ids n k nodes]).toPhrase c =
      (Node.toPhrases .term nodes).map sequenceOf := by
  match nodes with
  | [] => exact absurd rfl hne
  | [node] =>
    have ho : c.option? (termsNode whole ids n k [node]).name = some .term := by
      rw [termsNode, hterms node List.mem_cons_self]
      rcases hc with rfl | rfl <;> decide
    rw [toPhrase_option hname ho, Node.toPhrases, Node.toPhrases, termsNode]
    rcases node.toPhrase .term with err | q <;> rfl
  | node :: node' :: rest =>
    have ho : c.option? (termsNode whole ids n k (node :: node' :: rest)).name = some .sequence := by
      rcases hc with rfl | rfl <;> rfl
    rw [toPhrase_option hname ho]
    refine (toPhrase_sequence n k node _).trans ?_
    dsimp only
    rw [List.drop_one, List.tail_cons, Node.toPhrases, Node.toPhrases]
    rcases node.toPhrase .term with err | q
    · rfl
    rcases node'.toPhrase .term with err | q'
    · rfl
    rcases Node.toPhrases .term rest with err | qs <;> rfl

omit [Platform] in
theorem name_terms (ts : Spelling .terms) : ∀ n : Nat, ∀ node ∈ ts.node whole ids n,
    node.name = Part.term.name := by
  have hterm : ∀ (t : Spelling .term) n, (t.node whole ids n).name = Part.term.name := by
    intro t n
    cases t <;> rfl
  match ts with
  | .last t =>
    intro n node hnode
    rw [Spelling.node, List.mem_singleton] at hnode
    rw [hnode, hterm]
  | .more t rest =>
    intro n node hnode
    rw [Spelling.node, List.mem_cons] at hnode
    rcases hnode with rfl | hnode
    · exact hterm t n
    · exact name_terms rest _ node hnode

omit [Platform] in
theorem terms_ne_nil (ts : Spelling .terms) (n : Nat) : ts.node whole ids n ≠ [] := by
  cases ts <;> exact List.cons_ne_nil _ _

end

/-- Reads the tree of a spelling. -/
def Shape.read : {r : Rank} → Shape r → Except Error (Meaning r)
  | .atom, node => Node.toPhrase .atom node
  | .term, node => Node.toPhrase .term node
  | .terms, nodes => Node.toPhrases .term nodes
  | .branches, nodes => Node.toPhrases .orTerm nodes
  | .expression, node => Node.toPhrase .expression node

section

variable {whole : Text} {ids : Part → ExprId}

/-- A branch is read as its terms. -/
theorem toPhrase_branch (before : Layout) (ts : Spelling .terms) (k n m : Nat) :
    (branchNode whole ids before k n (ts.node whole ids m)).toPhrase .orTerm =
      (Node.toPhrases .term (ts.node whole ids m)).map sequenceOf := by
  rw [branchNode, toPhrase_third (.inl ⟨rfl, rfl⟩) rfl, alternativeNode,
    toPhrase_terms (.inr rfl) rfl (terms_ne_nil ts m) (name_terms ts m)]

/-- Reading the tree of a spelling gives what the spelling stands for. -/
theorem read_node {r : Rank} (c : Spelling r) : ∀ {n : Nat} {rest : Text},
    whole.drop n = c.text ++ rest → Shape.read (c.node whole ids n) = c.phrase n := by
  induction c with
  | reference label after =>
    intro n rest h
    rw [Spelling.text, List.append_assoc] at h
    exact (toPhrase_option (o := .reference) rfl rfl _ _).trans (toPhrase_reference h)
  | literal quoted after =>
    intro n rest h
    rw [Spelling.text, List.append_assoc] at h
    exact (toPhrase_option (o := .literal) rfl rfl _ _).trans (toPhrase_literal h)
  | regex quoted flags after =>
    intro n rest h
    rw [Spelling.text, List.cons_append, List.append_assoc, List.append_assoc] at h
    exact (toPhrase_option (o := .regex) rfl rfl _ _).trans (toPhrase_regex h)
  | group before inner after ih =>
    intro n rest h
    rw [Spelling.text, List.cons_append, List.append_assoc, List.append_assoc] at h
    have hbefore : whole.drop (n + 1) = _ := drop_append (show whole.drop n = [.char '('] ++ _ from h)
    refine (toPhrase_option (o := .parenthesized) rfl rfl _ _).trans ?_
    exact (toPhrase_third (.inr ⟨rfl, rfl⟩) rfl _ _ _ _ _ _).trans (ih (drop_append hbefore))
  | negation member ih =>
    intro n rest h
    have hmember : whole.drop (n + 1) = _ := drop_append (show whole.drop n = [.char '!'] ++ _ from h)
    refine (toPhrase_option (o := .notTerm) rfl rfl _ _).trans ?_
    refine (toPhrase_marked (.inl ⟨rfl, rfl⟩) rfl _ _ _ _ _).trans ?_
    exact congrArg (Except.map _) (ih hmember)
  | lookahead member ih =>
    intro n rest h
    have hmember : whole.drop (n + 1) = _ := drop_append (show whole.drop n = [.char '&'] ++ _ from h)
    refine (toPhrase_option (o := .lookaheadTerm) rfl rfl _ _).trans ?_
    refine (toPhrase_marked (.inr ⟨rfl, rfl⟩) rfl _ _ _ _ _).trans ?_
    exact congrArg (Except.map _) (ih hmember)
  | quantified member quantifier after ih =>
    intro n rest h
    rw [Spelling.text, List.append_assoc, List.cons_append] at h
    refine (toPhrase_option (o := .quantified) rfl rfl _ _).trans ?_
    refine (toPhrase_quantified (drop_append h)).trans ?_
    exact congrArg (Except.map _) (ih h)
  | plain atom ih =>
    intro n rest h
    refine (toPhrase_option (o := .atom) rfl ?_ _ _).trans (ih h)
    cases atom <;> rfl
  | last term ih =>
    intro n rest h
    have hterm : (term.node whole ids n).toPhrase .term = term.phrase n := ih h
    rw [Spelling.phrase, ← hterm]
    change Node.toPhrases .term [term.node whole ids n] = _
    rw [Node.toPhrases, Node.toPhrases]
    rcases (term.node whole ids n).toPhrase .term with err | p <;> rfl
  | more term more ih ih' =>
    intro n rest h
    rw [Spelling.text, List.append_assoc] at h
    have hterm : (term.node whole ids n).toPhrase .term = term.phrase n := ih h
    have hmore : Node.toPhrases .term (more.node whole ids (n + term.text.length)) = _ :=
      ih' (drop_append h)
    rw [Spelling.phrase, ← hterm, ← hmore]
    change Node.toPhrases .term (_ :: _) = _
    rw [Node.toPhrases]
  | lastBranch before terms ih =>
    intro n rest h
    rw [Spelling.text, List.cons_append, List.append_assoc] at h
    have hbefore : whole.drop (n + 1) = _ := drop_append (show whole.drop n = [.char '/'] ++ _ from h)
    have hterms : Node.toPhrases .term (terms.node whole ids _) = _ := ih (drop_append hbefore)
    rw [Spelling.phrase, ← hterms]
    change Node.toPhrases .orTerm [branchNode _ _ _ _ _ _] = _
    rw [Node.toPhrases, Node.toPhrases, toPhrase_branch]
    rcases Node.toPhrases .term _ with err | p <;> rfl
  | moreBranches before terms more ih ih' =>
    intro n rest h
    rw [Spelling.text, List.cons_append, List.append_assoc, List.append_assoc] at h
    have hbefore : whole.drop (n + 1) = _ := drop_append (show whole.drop n = [.char '/'] ++ _ from h)
    have hterms : Node.toPhrases .term (terms.node whole ids _) = _ := ih (drop_append hbefore)
    have hmore : Node.toPhrases .orTerm (more.node whole ids _) = _ :=
      ih' (drop_append (drop_append hbefore))
    rw [Spelling.phrase, ← hterms, ← hmore]
    change Node.toPhrases .orTerm (branchNode _ _ _ _ _ _ :: _) = _
    rw [Node.toPhrases, toPhrase_branch]
    rcases Node.toPhrases .term _ with err | p <;> rfl
  | single terms ih =>
    intro n rest h
    refine (toPhrase_terms (.inl rfl) rfl (terms_ne_nil terms n) (name_terms terms n) n _
      terms.text.length).trans ?_
    exact congrArg (Except.map _) (ih h)
  | choice first more ih ih' =>
    intro n rest h
    rw [Spelling.text, List.append_assoc] at h
    have hfirst : Node.toPhrases .term (first.node whole ids n) = _ := ih h
    have hmore : Node.toPhrases .orTerm (more.node whole ids _) = _ := ih' (drop_append h)
    rw [Spelling.phrase, ← hfirst, ← hmore]
    refine (toPhrase_option (o := .ored) rfl rfl _ _).trans ((toPhrase_ored _ _ _ _).trans ?_)
    rw [alternativeNode, toPhrase_terms (.inr rfl) rfl (terms_ne_nil first n) (name_terms first n)]
    rcases Node.toPhrases .term (first.node whole ids n) with err | p <;> rfl

/-! ## Reading rules -/

/-- Reading the tree of a rule gives what the rule stands for. -/
theorem toDefinition_node (r : RuleSpelling) {n : Nat} {rest : Text}
    (h : whole.drop n = r.text ++ rest) : (r.node whole ids n).toDefinition = r.definition n := by
  rw [RuleSpelling.text, List.append_assoc, List.append_assoc, List.cons_append,
    List.append_assoc] at h
  have hlabel : (tokenNode whole ids .label .labelText r.label.text r.afterLabel n).toLabel =
      .ok r.label.text := congrArg Except.ok (text_nodeAt ids h .labelText [])
  have hequals := drop_append (drop_append h)
  have hafter : whole.drop (n + r.label.text.length + (Layout.text r.afterLabel).length + 1) = _ :=
    drop_append (show whole.drop _ = [.char '='] ++ _ from hequals)
  have hbody : Node.toPhrase .expression (r.body.node whole ids _) = _ :=
    read_node r.body (drop_append hafter)
  have hrule : (r.node whole ids n).expectRule "rule".toText = .ok () := if_pos rfl
  rw [RuleSpelling.definition, ← hbody, Node.toDefinition, hrule]
  dsimp only [RuleSpelling.node, nodeAt, bind, Except.bind]
  rw [hlabel]
  dsimp only
  rcases Node.toPhrase .expression _ with err | p <;> rfl

theorem toDefinitionsAfter_nodes : ∀ (rs : List RuleSpelling) (labels : List Text) {n : Nat}
    {rest : Text}, whole.drop n = rs.flatMap RuleSpelling.text ++ rest →
    Node.toDefinitionsAfter labels (nodesFrom (RuleSpelling.node whole ids) RuleSpelling.text n rs) =
      definitionsAfter labels rs n := by
  intro rs
  induction rs with
  | nil =>
    intro labels n rest h
    rfl
  | cons r rs ih =>
    intro labels n rest h
    rw [List.flatMap_cons, List.append_assoc] at h
    rw [nodesFrom, Node.toDefinitionsAfter, definitionsAfter, toDefinition_node r h]
    rcases r.definition n with err | d
    · rfl
    · dsimp only [bind, Except.bind]
      rw [ih (d.label :: labels) (drop_append h)]

/-- Reading the tree of a definition text gives what the text stands for. -/
theorem toDefinitions_node (r : RulesSpelling) {rest : Text} (h : whole = r.text ++ rest) :
    (r.node whole ids).toDefinitions = r.definitions := by
  rw [RulesSpelling.text, List.append_assoc] at h
  have hrules : whole.drop (Layout.text r.before).length =
      r.rules.flatMap RuleSpelling.text ++ rest := by
    rw [h, List.drop_left]
  rw [RulesSpelling.definitions, ← toDefinitionsAfter_nodes r.rules [] hrules]
  rfl

end

end Pegboard.Syntax
