import Pegboard.Proofs.Syntax.Gaps
import Pegboard.Proofs.Syntax.Language
import Pegboard.Proofs.Syntax.Relayout
import Pegboard.Proofs.Syntax.Simulation

/-!
# Parentheses around a part of a definition text

An expression, an alternative, a term or an atom can be put in parentheses where it stands.
What has it as a part is then a spelling with a group in this place, and stands for the same
(`encloses_of_mem`), since a group stands for what it holds and the sequence of one term for
the term.

The text with a parenthesis in front, and with a line break and a parenthesis behind, spells
the lexemes of the new spelling (`spells_enclosed`).  No token goes on with a parenthesis, and
the line break keeps a comment from taking it in.
-/

namespace Pegboard.Syntax

open Regex

/-! ## Pieces in parentheses -/

/-- The lexemes of a parenthesis that has no layout after it. -/
def openingLexeme : Lexeme := ⟨.sign .opening, false⟩

def closingLexeme : Lexeme := ⟨.sign .closing, false⟩

/-- The lexemes are those of the pieces with parentheses around some of them.  These are the
ones that a node takes up in the text of the pieces at an offset, and the last one is not a
mark. -/
def Encloses (ps : List Piece) (ls : List Lexeme) (n : Nat) (m : Node) : Prop :=
  ∃ before front p after, ps = before ++ ((front ++ [p]) ++ after) ∧ p.token.isMark = false ∧
    ls = before.map Piece.lexeme ++
      openingLexeme :: ((front ++ [p]).map Piece.lexeme ++ closingLexeme :: after.map Piece.lexeme) ∧
    m.start = (n + (textOf before).length : Nat) ∧
    m.stop = (n + (textOf before).length + (textOf (front ++ [p])).length : Nat)

/-- More pieces around do not matter. -/
theorem Encloses.within {ps : List Piece} {ls : List Lexeme} {n n' : Nat} {m : Node} (h : Encloses ps ls n' m)
    (pre post : List Piece) (hn : n' = n + (textOf pre).length) :
    Encloses (pre ++ (ps ++ post)) (pre.map Piece.lexeme ++ (ls ++ post.map Piece.lexeme)) n m := by
  obtain ⟨before, front, p, after, rfl, hmark, rfl, hstart, hstop⟩ := h
  subst hn
  refine ⟨pre ++ before, front, p, after ++ post, by simp, hmark, by simp, ?_, ?_⟩
  · rw [hstart, textOf_append, List.length_append, ← Nat.add_assoc]
  · rw [hstop, textOf_append pre, List.length_append, ← Nat.add_assoc]

/-- A spelling in parentheses. -/
def Spelling.grouped (e : Spelling .expression) : Spelling .atom := .group [] e []

theorem Spelling.lexemes_grouped (e : Spelling .expression) :
    e.grouped.lexemes = openingLexeme :: (e.lexemes ++ [closingLexeme]) := by
  simp [grouped, lexemes, pieces, Piece.lexeme, Layout.text, openingLexeme, closingLexeme]

/-- All of a spelling can be put in parentheses. -/
theorem Spelling.encloses {r : Rank} (c : Spelling r) {n : Nat} {m : Node} (hstart : m.start = n)
    (hstop : m.stop = (n + c.text.length : Nat)) :
    Encloses c.pieces (openingLexeme :: (c.lexemes ++ [closingLexeme])) n m := by
  obtain ⟨front, p, hpieces, hmark⟩ := exists_last_piece c
  refine ⟨[], front, p, [], by rw [hpieces, List.append_nil, List.nil_append], hmark, ?_, ?_, ?_⟩
  · rw [lexemes, hpieces]
    rfl
  · rw [hstart]
    rfl
  · rw [hstop, ← hpieces, c.textOf_pieces]
    rfl

/-! ## Spellings with a group -/

/-- The part of a spelling at an offset that a node is of can be put in parentheses, and the
spelling that comes of it stands for the same. -/
def Groupable [Platform] {r : Rank} (c : Spelling r) (n : Nat) (m : Node) : Prop :=
  ∃ c' : Spelling r, c'.meaning? = c.meaning? ∧ Encloses c.pieces c'.lexemes n m

/-- A group of one term stands for what the term does. -/
theorem Spelling.meaning?_single_last [Platform] (t : Spelling .term) :
    (single (last t)).meaning? = t.meaning? := by
  rw [meaning?, meaning?, Option.map_map]
  exact congrFun Option.map_id t.meaning?

/-! Of an alternative only the sequence of its terms counts. -/

theorem Spelling.meaning?_lastBranch [Platform] (before : Layout) (ts : Spelling .terms) :
    (lastBranch before ts).meaning? = (ts.meaning?.map sequenceOf).map fun p => [p] := by
  rw [meaning?, Option.map_map]
  rfl

theorem Spelling.meaning?_moreBranches [Platform] (before : Layout) (ts : Spelling .terms)
    (rest : Spelling .branches) :
    (moreBranches before ts rest).meaning? =
      (ts.meaning?.map sequenceOf).bind fun p => rest.meaning?.map (p :: ·) := by
  rw [meaning?, Option.bind_map]
  rfl

theorem Spelling.meaning?_choice [Platform] (ts : Spelling .terms) (rest : Spelling .branches) :
    (choice ts rest).meaning? = (ts.meaning?.map sequenceOf).bind fun p =>
      rest.meaning?.map fun qs => .compound .choice (p :: qs) := by
  rw [meaning?, Option.bind_map]
  rfl

section Groupable

variable {r r' : Rank} {n n' : Nat} {m : Node}

/-- A part of a spelling stands where the spelling is put together from it and the pieces around
it, and all that counts of it is what it stands for. -/
theorem Groupable.within [Platform] {d : Spelling r'} (h : Groupable d n' m)
    (k : Spelling r' → Spelling r) (pre post : List Piece)
    (hpieces : ∀ d, (k d).pieces = pre ++ (d.pieces ++ post))
    (hmeaning : ∀ d', d'.meaning? = d.meaning? → (k d').meaning? = (k d).meaning?)
    (hn : n' = n + (textOf pre).length) : Groupable (k d) n m := by
  obtain ⟨d', hd', hencloses⟩ := h
  refine ⟨k d', hmeaning d' hd', ?_⟩
  have hlexemes : (k d').lexemes = pre.map Piece.lexeme ++ (d'.lexemes ++ post.map Piece.lexeme) := by
    rw [Spelling.lexemes, hpieces, List.map_append, List.map_append, Spelling.lexemes]
  rw [hpieces, hlexemes]
  exact hencloses.within pre post hn

variable (whole : Text) (ids : Part → ExprId)

theorem groupable_atom [Platform] (a : Spelling .atom) (n : Nat) :
    Groupable a n (a.node whole ids n) := by
  refine ⟨(Spelling.single (.last (.plain a))).grouped, Spelling.meaning?_single_last (.plain a), ?_⟩
  rw [Spelling.lexemes_grouped]
  exact a.encloses (by cases a <;> rfl) (stop_atom a n)

theorem groupable_term [Platform] (t : Spelling .term) (n : Nat) :
    Groupable t n (t.node whole ids n) := by
  refine ⟨.plain (Spelling.single (.last t)).grouped, Spelling.meaning?_single_last t, ?_⟩
  have hlexemes : (Spelling.plain (Spelling.single (.last t)).grouped).lexemes = _ :=
    Spelling.lexemes_grouped (.single (.last t))
  rw [hlexemes]
  exact t.encloses (by cases t <;> rfl) (stop_term t n)

theorem groupable_expression [Platform] (e : Spelling .expression) (n : Nat) :
    Groupable e n (e.node whole ids n) := by
  refine ⟨.single (.last (.plain e.grouped)), Spelling.meaning?_single_last (.plain e.grouped), ?_⟩
  have hlexemes : (Spelling.single (.last (.plain e.grouped))).lexemes = _ := Spelling.lexemes_grouped e
  rw [hlexemes]
  exact e.encloses (by cases e <;> rfl) (stop_expression e n)

/-- The terms of an alternative, where all that counts of them is the sequence of them. -/
theorem groupable_alternative [Platform] {ts : Spelling .terms} (k : Spelling .terms → Spelling r)
    (pre post : List Piece) (hpieces : ∀ ts, (k ts).pieces = pre ++ (ts.pieces ++ post))
    (hmeaning : ∀ ts', ts'.meaning?.map sequenceOf = ts.meaning?.map sequenceOf →
      (k ts').meaning? = (k ts).meaning?)
    (hn : n' = n + (textOf pre).length) (terms : List Node) :
    Groupable (k ts) n (alternativeNode whole ids n' ts.text.length terms) := by
  refine ⟨k (.last (.plain (Spelling.single ts).grouped)),
    hmeaning _ (Spelling.meaning?_single_last (.plain (Spelling.single ts).grouped)), ?_⟩
  have hlexemes : (Spelling.last (.plain (Spelling.single ts).grouped)).lexemes = _ :=
    Spelling.lexemes_grouped (.single ts)
  rw [Spelling.lexemes, hpieces, hpieces, List.map_append, List.map_append, ← Spelling.lexemes, hlexemes]
  exact (ts.encloses rfl rfl).within pre post hn

end Groupable

/-! ## Nodes that can be put in parentheses -/

/-- The parts that can be put in parentheses. -/
def Part.isGroupable : Part → Bool
  | expression | alternative | term | atom => true
  | _ => false

/-- Whether nodes of the name can be put in parentheses. -/
def groupableName (name : Text) : Bool :=
  name ∈ [Part.expression, .alternative, .term, .atom].map Part.name

theorem groupableName_eq (p : Part) : groupableName p.name = p.isGroupable := by
  cases p <;> decide

/-- The nodes in trees that could be put in parentheses have a property. -/
def Grouped (P : Node → Prop) (ns : List Node) : Prop := ∀ m ∈ ns.flatMap (Node.having groupableName), P m

section Grouped

variable {whole : Text} {ids : Part → ExprId} {P Q : Node → Prop} {ns : List Node}

theorem Grouped.mono (h : Grouped P ns) (hPQ : ∀ m, P m → Q m) : Grouped Q ns := fun m hm => hPQ m (h m hm)

theorem grouped_nil : Grouped P [] := nofun

theorem Grouped.cons {x : Node} (h : Grouped P [x]) (h' : Grouped P ns) : Grouped P (x :: ns) := by
  intro m hm
  rw [List.flatMap_cons, List.mem_append] at hm
  rw [← List.flatMap_singleton (Node.having groupableName) x] at hm
  exact hm.elim (h m) (h' m)

/-- A node around trees, which could be put in parentheses itself. -/
theorem Grouped.node {p : Part} {k length : Nat} (hnode : P (nodeAt whole ids p k length ns))
    (h : Grouped P ns) : Grouped P [nodeAt whole ids p k length ns] := by
  intro m hm
  rw [List.flatMap_singleton] at hm
  cases hp : p.isGroupable with
  | true =>
    rw [Node.having_of ((groupableName_eq p).trans hp)] at hm
    exact (List.mem_cons.1 hm).elim (fun hm => hm ▸ hnode) (h m)
  | false =>
    rw [Node.having_of_not ((groupableName_eq p).trans hp)] at hm
    exact h m hm

/-- A node around trees, which could not. -/
theorem Grouped.around {p : Part} (hp : p.isGroupable = false) (h : Grouped P ns) (k length : Nat) :
    Grouped P [nodeAt whole ids p k length ns] := by
  intro m hm
  rw [List.flatMap_singleton, Node.having_of_not ((groupableName_eq p).trans hp)] at hm
  exact h m hm

theorem grouped_leaf {p : Part} (hp : p.isGroupable = false) (k length : Nat) :
    Grouped P [nodeAt whole ids p k length []] := grouped_nil.around hp k length

theorem grouped_layout (layout : Layout) (k : Nat) : Grouped P [layoutNode whole ids layout k] := by
  refine .around rfl ?_ _ _
  induction layout generalizing k with
  | nil => exact grouped_nil
  | cons b rest ih =>
    refine .cons (.around rfl ?_ _ _) (ih _)
    cases b <;> exact grouped_leaf rfl _ _

theorem grouped_token {p token : Part} (hp : p.isGroupable = false) (htoken : token.isGroupable = false)
    (text : Text) (after : Layout) (k : Nat) : Grouped P [tokenNode whole ids p token text after k] :=
  .around hp (.cons (grouped_leaf htoken _ _) (grouped_layout after _)) _ _

theorem Grouped.terms {k length : Nat} (h : Grouped P ns) : Grouped P [termsNode whole ids k length ns] := by
  intro m hm
  rw [List.flatMap_singleton, having_termsNode whole ids (by decide) (by decide)] at hm
  exact h m hm

variable {r r' : Rank} {n n' : Nat}

theorem Grouped.within [Platform] {d : Spelling r'} (h : Grouped (Groupable d n') ns)
    (k : Spelling r' → Spelling r) (pre post : List Piece)
    (hpieces : ∀ d, (k d).pieces = pre ++ (d.pieces ++ post))
    (hmeaning : ∀ d', d'.meaning? = d.meaning? → (k d').meaning? = (k d).meaning?)
    (hn : n' = n + (textOf pre).length) : Grouped (Groupable (k d) n) ns :=
  h.mono fun _ hm => hm.within k pre post hpieces hmeaning hn

theorem Grouped.alternative [Platform] {ts : Spelling .terms}
    (h : Grouped (Groupable ts n') (ts.node whole ids n'))
    (k : Spelling .terms → Spelling r) (pre post : List Piece)
    (hpieces : ∀ ts, (k ts).pieces = pre ++ (ts.pieces ++ post))
    (hmeaning : ∀ ts', ts'.meaning?.map sequenceOf = ts.meaning?.map sequenceOf →
      (k ts').meaning? = (k ts).meaning?)
    (hn : n' = n + (textOf pre).length) :
    Grouped (Groupable (k ts) n) [alternativeNode whole ids n' ts.text.length (ts.node whole ids n')] :=
  .node (groupable_alternative whole ids k pre post hpieces hmeaning hn _)
    (h.within k pre post hpieces (fun ts' hts' => hmeaning ts' (congrArg _ hts')) hn).terms

end Grouped

/-- The nodes in the tree of a spelling that could be put in parentheses can be. -/
theorem grouped_spelling [Platform] (whole : Text) (ids : Part → ExprId) {r : Rank}
    (c : Spelling r) :
    ∀ n, Grouped (Groupable c n) (Shape.toList (c.node whole ids n)) := by
  induction c with
  | reference label after =>
    intro n
    refine .node (groupable_atom whole ids (.reference label after) n) (.around rfl ?_ _ _)
    exact .cons (grouped_token rfl rfl _ _ _) (grouped_leaf rfl _ _)
  | literal quoted after =>
    intro n
    exact .node (groupable_atom whole ids (.literal quoted after) n) (grouped_token rfl rfl _ _ _)
  | regex quoted flags after =>
    intro n
    refine .node (groupable_atom whole ids (.regex quoted flags after) n) (.around rfl ?_ _ _)
    exact .cons (grouped_leaf rfl _ _) (.cons (grouped_leaf rfl _ _)
      (.cons (grouped_leaf rfl _ _) (grouped_layout _ _)))
  | group before inner after ih =>
    intro n
    refine .node (groupable_atom whole ids (.group before inner after) n) (.around rfl ?_ _ _)
    refine .cons (grouped_leaf rfl _ _) (.cons (grouped_layout _ _) (.cons ?_
      (.cons (grouped_leaf rfl _ _) (grouped_layout _ _))))
    exact (ih _).within (.group before · after) [⟨.sign .opening, before⟩] [⟨.sign .closing, after⟩]
      (fun _ => rfl) (fun _ h => h) (by simp [Token.text]; omega)
  | negation member ih =>
    intro n
    refine .node (groupable_term whole ids (.negation member) n) (.around rfl ?_ _ _)
    refine .cons (grouped_leaf rfl _ _) (.cons ?_ (grouped_layout _ _))
    exact (ih _).within .negation [⟨.sign .negation, []⟩] [] (fun _ => by simp [Spelling.pieces])
      (fun _ h => congrArg (Option.map _) h) (by simp [Token.text, Layout.text])
  | lookahead member ih =>
    intro n
    refine .node (groupable_term whole ids (.lookahead member) n) (.around rfl ?_ _ _)
    refine .cons (grouped_leaf rfl _ _) (.cons ?_ (grouped_layout _ _))
    exact (ih _).within .lookahead [⟨.sign .lookahead, []⟩] [] (fun _ => by simp [Spelling.pieces])
      (fun _ h => congrArg (Option.map _) h) (by simp [Token.text, Layout.text])
  | quantified member quantifier after ih =>
    intro n
    refine .node (groupable_term whole ids (.quantified member quantifier after) n) (.around rfl ?_ _ _)
    refine .cons ?_ (grouped_token rfl rfl _ _ _)
    exact (ih _).within (.quantified · quantifier after) [] [⟨.sign (.quantifier quantifier), after⟩]
      (fun _ => rfl) (fun _ h => congrArg (Option.map _) h) rfl
  | plain atom ih =>
    intro n
    refine .node (groupable_term whole ids (.plain atom) n) ?_
    exact (ih _).within .plain [] [] (fun _ => by simp [Spelling.pieces]) (fun _ h => h) rfl
  | last term ih =>
    intro n
    exact (ih _).within .last [] [] (fun _ => by simp [Spelling.pieces]) (fun _ h => congrArg (Option.map _) h) rfl
  | more term rest ih ih' =>
    intro n
    refine .cons ((ih _).within (.more · rest) [] rest.pieces (fun _ => rfl) (fun _ h => ?_) rfl) ?_
    · rw [Spelling.meaning?, h, Spelling.meaning?]
    · refine (ih' _).within (.more term) term.pieces [] (fun _ => by simp [Spelling.pieces]) (fun _ h => ?_) ?_
      · rw [Spelling.meaning?, h, Spelling.meaning?]
      · rw [term.textOf_pieces]
  | lastBranch before terms ih =>
    intro n
    refine .around rfl (.cons (grouped_leaf rfl _ _) (.cons (grouped_layout _ _) ?_)) _ _
    refine (ih _).alternative (.lastBranch before) [⟨.sign .slash, before⟩] []
      (fun _ => by simp [Spelling.pieces]) (fun _ h => ?_) (by simp [Token.text]; omega)
    rw [Spelling.meaning?_lastBranch, h, Spelling.meaning?_lastBranch]
  | moreBranches before terms rest ih ih' =>
    intro n
    refine .cons (.around rfl (.cons (grouped_leaf rfl _ _) (.cons (grouped_layout _ _) ?_)) _ _) ?_
    · refine (ih _).alternative (.moreBranches before · rest) [⟨.sign .slash, before⟩] rest.pieces
        (fun _ => rfl) (fun _ h => ?_) (by simp [Token.text]; omega)
      rw [Spelling.meaning?_moreBranches, h, Spelling.meaning?_moreBranches]
    · refine (ih' _).within (.moreBranches before terms) (⟨.sign .slash, before⟩ :: terms.pieces) []
        (fun _ => by simp [Spelling.pieces]) (fun _ h => ?_) ?_
      · rw [Spelling.meaning?, h, Spelling.meaning?]
      · simp [Token.text, terms.textOf_pieces]
        omega
  | single terms ih =>
    intro n
    refine .node (groupable_expression whole ids (.single terms) n) (.terms ?_)
    exact (ih _).within .single [] [] (fun _ => by simp [Spelling.pieces]) (fun _ h => congrArg (Option.map _) h) rfl
  | choice first rest ih ih' =>
    intro n
    refine .node (groupable_expression whole ids (.choice first rest) n) (.around rfl (.cons ?_ ?_) _ _)
    · refine (ih _).alternative (.choice · rest) [] rest.pieces (fun _ => rfl) (fun _ h => ?_) rfl
      rw [Spelling.meaning?_choice, h, Spelling.meaning?_choice]
    · refine .around rfl ?_ _ _
      refine (ih' _).within (.choice first) first.pieces [] (fun _ => by simp [Spelling.pieces]) (fun _ h => ?_) ?_
      · rw [Spelling.meaning?, h, Spelling.meaning?]
      · rw [first.textOf_pieces]

/-! ## Rules with a group -/

/-- The part of rules at an offset that a node is of can be put in parentheses, and the rules that
come of it stand for the same. -/
def GroupableRules [Platform] (rs : List RuleSpelling) (n : Nat) (m : Node) : Prop :=
  ∃ rs' : List RuleSpelling, rs'.map RuleSpelling.meaning? = rs.map RuleSpelling.meaning? ∧
    Encloses (rs.flatMap RuleSpelling.pieces) (rs'.flatMap RuleSpelling.lexemes) n m

theorem Groupable.rules [Platform] {r : RuleSpelling} {n : Nat} {m : Node}
    (h : Groupable r.body (n + r.label.text.length + (Layout.text r.afterLabel).length + 1 +
      (Layout.text r.afterEquals).length) m) (rs : List RuleSpelling) : GroupableRules (r :: rs) n m := by
  obtain ⟨body, hmeaning, hencloses⟩ := h
  have hwithin := hencloses.within (n := n) [⟨.label r.label, r.afterLabel⟩, ⟨.sign .equals, r.afterEquals⟩]
    (rs.flatMap RuleSpelling.pieces) (by simp [Token.text]; omega)
  rw [List.map_flatMap] at hwithin
  refine ⟨⟨r.label, r.afterLabel, r.afterEquals, body⟩ :: rs, ?_, hwithin⟩
  exact congrArg (· :: _) (congrArg (Option.map _) hmeaning)

theorem grouped_rules [Platform] (whole : Text) (ids : Part → ExprId) : ∀ (rs : List RuleSpelling)
    (n : Nat),
    Grouped (GroupableRules rs n) (nodesFrom (RuleSpelling.node whole ids) RuleSpelling.text n rs)
  | [], _ => grouped_nil
  | r :: rs, n => by
    refine .cons (.around rfl ?_ _ _) ?_
    · refine .cons (grouped_token rfl rfl _ _ _) (.cons (grouped_token rfl rfl _ _ _) ?_)
      exact (grouped_spelling whole ids r.body _).mono fun m hm => hm.rules rs
    · refine (grouped_rules whole ids rs (n + r.text.length)).mono ?_
      rintro m ⟨rs', hmeaning, hencloses⟩
      refine ⟨r :: rs', by rw [List.map_cons, hmeaning, List.map_cons], ?_⟩
      have hwithin := hencloses.within (n := n) r.pieces [] (by rw [r.textOf_pieces])
      simpa [RuleSpelling.lexemes] using hwithin

/-- In the tree of a definition text every node that could be put in parentheses can be. -/
theorem RulesSpelling.groupable_of_mem [Platform] (r : RulesSpelling) (whole : Text)
    (ids : Part → ExprId) {m : Node} (hm : m ∈ (r.node whole ids).nodes)
    (hname : groupableName m.name = true) :
    GroupableRules r.rules (Layout.text r.before).length m := by
  have hall : Grouped (GroupableRules r.rules (Layout.text r.before).length) [r.node whole ids] :=
    .around rfl (.cons (grouped_layout _ _) (.around rfl (grouped_rules whole ids _ _) _ _)) _ _
  refine hall m ?_
  rw [List.flatMap_singleton]
  exact List.mem_filter.2 ⟨hm, hname⟩

/-! ## Texts with parentheses put in -/

theorem Spells.behind_sign {y : Text} {ls : List Lexeme} (g : Sign) (h : Spells y ls) :
    Spells (g.symbol :: y) (⟨.sign g, false⟩ :: ls) := by
  refine .cons rfl (fun _ _ => h.readBlank) ?_
  rwa [readLayout_of_none h.readBlank]

theorem Token.goesOn_opening (t : Token) : t.goesOn '(' = false := by
  match t with
  | .label _ => exact (by decide +kernel : labelRest.holds '(' = false)
  | .regex _ _ => exact (by decide +kernel : flagLetter.holds '(' = false)
  | .literal _ | .sign _ => rfl

/-- Pieces spell what they did before a parenthesis. -/
theorem Cuts.spells_before_opening {qs : List Piece} {rest y : Text} {ls : List Lexeme} (hqs : qs ≠ [])
    (hy : Spells (.char '(' :: y) ls) : ∀ {ps : List Piece} {s : Text}, Cuts s (ps ++ qs) rest →
      Spells (textOf ps ++ .char '(' :: y) (ps.map Piece.lexeme ++ ls)
  | [], _, _ => hy
  | p :: ps, s, h => by
    cases h with
    | @cons _ s' _ t _ token more =>
      have ih := spells_before_opening hqs hy more
      have hmore := more.text_eq
      have hne : (readLayout s').2 ≠ [] := by
        rw [hmore]
        exact List.append_ne_nil_of_left_ne_nil (textOf_ne_nil (by simp [hqs])) rest
      rw [textOf_cons, List.append_assoc, List.append_assoc]
      refine Spells.behind token hne ih fun c hc => ?_
      cases ps with
      | nil =>
        obtain rfl : '(' = c := Option.some.inj hc
        exact .inl t.goesOn_opening
      | cons q ps =>
        refine .inr ?_
        obtain ⟨d, u, htext⟩ := List.exists_cons_of_ne_nil q.token.text_ne_nil
        rw [textOf_cons, htext] at hc
        rw [hmore, show (q :: ps).append qs = q :: (ps ++ qs) from rfl, textOf_cons, htext]
        exact hc

/-- Pieces spell what they did and two parentheses, if these are put in and a line is ended
before the second one. -/
theorem Cuts.spells_enclosed {s : Text} {before front after : List Piece} {p : Piece}
    (h : Cuts s (before ++ ((front ++ [p]) ++ after)) []) (hmark : p.token.isMark = false) :
    Spells (textOf before ++ .char '(' ::
      (textOf (front ++ [p]) ++ .char '\n' :: .char ')' :: textOf after))
      (before.map Piece.lexeme ++
        openingLexeme :: ((front ++ [p]).map Piece.lexeme ++ closingLexeme :: after.map Piece.lexeme)) := by
  obtain ⟨hinside, hafter⟩ := h.split.2.split
  have hspells := hafter.spells .nil
  rw [List.append_nil, List.append_nil] at hspells
  have hline := hinside.spells_line hmark (hspells.behind_sign .closing)
  exact h.spells_before_opening (by simp) (hline.behind_sign .opening)

/-- A definition text with parentheses put in around a node is read as rules that stand for the
same. -/
theorem readsAs_grouped [Platform] {s : Text} {r : RulesSpelling}
    (hread : readRules true s = some (r, [])) (whole : Text)
    (ids : Part → ExprId) {m : Node} (hm : m ∈ (r.node whole ids).nodes) (hname : groupableName m.name = true) :
    ReadsAs (s.take m.start.toNat ++ .char '(' ::
      (s.slice m.start m.stop ++ .char '\n' :: .char ')' :: s.drop m.stop.toNat))
      r.rules := by
  obtain ⟨rs', hmeaning, before, front, p, after, hpieces, hmark, hlexemes, hstart, hstop⟩ :=
    r.groupable_of_mem whole ids hm hname
  have hcuts := (takes_rules hread).1
  rw [RulesSpelling.pieces, hpieces] at hcuts
  -- the text before the node, that of the node, and the text after it
  have hs : s = (Layout.text r.before ++ textOf before) ++ (textOf (front ++ [p]) ++ textOf after) := by
    rw [readRules_text hread, r.textOf_pieces, RulesSpelling.pieces, hpieces]
    simp
  have hfront : m.start = (Layout.text r.before ++ textOf before).length := by
    rw [hstart, List.length_append]
  have hback : m.stop = (Layout.text r.before ++ textOf before ++ textOf (front ++ [p])).length := by
    rw [hstop, List.length_append, List.length_append]
  have htake : s.take m.start.toNat = Layout.text r.before ++ textOf before := by
    rw [hs, hfront, Int.toNat_natCast, List.take_left]
  have hdrop : s.drop m.stop.toNat = textOf after := by
    rw [hs, hback, Int.toNat_natCast, ← List.append_assoc, List.drop_left]
  have hslice : s.slice m.start m.stop = textOf (front ++ [p]) := by
    rw [hs, hfront, hback, Text.slice_natCast, ← List.append_assoc, List.take_left, List.drop_left]
  have hspells := hcuts.spells_enclosed hmark
  have hpasses : Passes (Layout.text r.before) := by
    rw [RulesSpelling.before_eq hread]
    refine passes_of_rest ?_
    rw [hcuts.text_eq]
    simp [p.token.text_ne_nil]
  rw [htake, hdrop, hslice, List.append_assoc]
  cases rs' with
  | nil => cases hmeaning
  | cons r' rs' =>
    rw [← hlexemes] at hspells
    obtain ⟨r'', hread', hmeaning'⟩ := readsAs_behind hpasses hspells
    exact ⟨r'', hread', hmeaning'.trans hmeaning⟩

end Pegboard.Syntax
