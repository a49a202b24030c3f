import Pegboard.Proofs.Syntax.Pieces

/-!
# Reading the same tokens again

What a text is read as depends on its tokens, and of the layout between them only on
whether a mark stands right before its term.  `Spells` says that a text shows the tokens of
some lexemes, with any layout except where a mark has none.

If a text spells the lexemes of a spelling, and nothing that follows could be taken by it,
then the text is read as the same spelling but for the layout (`Spelling.reread`), which means
the same.  What follows in
a definition text can never be taken: a term is followed by what starts a term or ends an
alternative, an alternative by a slash, a closing parenthesis, the label of a rule or the
end.  So all the rules are read again (`reread_rules`).
-/

namespace Pegboard.Syntax

/-! ## Texts that spell lexemes -/

/-- A mark has to stand right before its term. -/
def Token.isMark : Token → Bool
  | .sign .negation | .sign .lookahead => true
  | _ => false

/-- The text shows the tokens of the lexemes, and no layout after a mark that has none. -/
inductive Spells : Text → List Lexeme → Prop where
  | nil : Spells [] []
  | cons {s s' : Text} {l : Lexeme} {ls : List Lexeme} (token : l.token.Reads s s')
      (unspaced : l.token.isMark = true → l.spaced = false → readBlank s' = none)
      (more : Spells (readLayout s').2 ls) : Spells s (l :: ls)

/-- What splits into lexemes spells them. -/
theorem Lexes.spells {s : Text} {ls : List Lexeme} (h : Lexes s ls) : Spells s ls := by
  induction ls generalizing s with
  | nil =>
    rw [h.eq_nil]
    exact .nil
  | cons l ls ih =>
    obtain ⟨s', hreads, hbefore, hrest⟩ := h.reads
    refine .cons hreads (fun _ hspaced => ?_) (ih hrest)
    rw [hbefore, Token.before, Bool.not_eq_false', List.isEmpty_iff] at hspaced
    have htext := readLayout_text s'
    rw [hspaced, List.nil_append] at htext
    rw [htext]
    exact readBlank_readLayout s'

theorem Spells.eq_nil {s : Text} (h : Spells s []) : s = [] := by
  cases h
  rfl

theorem Spells.readBlank {s : Text} {ls : List Lexeme} (h : Spells s ls) : readBlank s = none := by
  cases h with
  | nil => rfl
  | cons token _ _ => exact token.readBlank

section Sign

variable {g : Sign} {spaced : Bool} {s : Text} {ls : List Lexeme}

/-- A text that starts with a sign goes on after it, -/
theorem Spells.sign (h : Spells s (⟨.sign g, spaced⟩ :: ls)) :
    ∃ s', s = g.symbol :: s' ∧ Spells (readLayout s').2 ls := by
  cases h with
  | @cons _ s' _ _ token _ more => exact ⟨s', token, more⟩

/-- right after it, if it is a mark without layout. -/
theorem Spells.mark (hmark : (Token.sign g).isMark = true) (h : Spells s (⟨.sign g, false⟩ :: ls)) :
    ∃ s', s = g.symbol :: s' ∧ Spells s' ls := by
  cases h with
  | @cons _ s' _ _ token unspaced more =>
    rw [readLayout_of_none (unspaced hmark rfl)] at more
    exact ⟨s', token, more⟩

end Sign

theorem Token.text_ne_nil : (t : Token) → t.text ≠ []
  | .label _ => List.cons_ne_nil _ _
  | .literal _ => List.cons_ne_nil _ _
  | .regex _ _ => List.cons_ne_nil _ _
  | .sign _ => List.cons_ne_nil _ _

/-- The equals sign is the only token that starts with an equals sign. -/
theorem Spells.head?_eq_equals {s : Text} {ls : List Lexeme} (h : Spells s ls) :
    s.head? = some (Codepoint.char '=') ↔ ∃ spaced rest, ls = ⟨.sign .equals, spaced⟩ :: rest := by
  constructor
  · intro hhead
    obtain ⟨s', rfl⟩ := List.head?_eq_some_iff.1 hhead
    cases h with
    | @cons _ _ l ls token _ _ =>
      obtain ⟨t, spaced⟩ := l
      have hequals : (Token.sign .equals).Reads (.char '=' :: s') s' := rfl
      have hsame := hequals.readToken
      rw [token.readToken] at hsame
      cases hsame
      exact ⟨spaced, ls, rfl⟩
  · rintro ⟨spaced, rest, rfl⟩
    obtain ⟨s', rfl, -⟩ := h.sign
    rfl

/-- The lexemes of a spelling. -/
def Spelling.lexemes {r : Rank} (c : Spelling r) : List Lexeme := c.pieces.map Piece.lexeme

/-- The lexemes of a rule. -/
def RuleSpelling.lexemes (r : RuleSpelling) : List Lexeme := r.pieces.map Piece.lexeme

/-- A text that spells pieces starts like them. -/
theorem Spells.head?_eq {ps : List Piece} (hps : ps ≠ []) {s : Text} {rest : List Lexeme}
    (h : Spells s (ps.map Piece.lexeme ++ rest)) : s.head? = (textOf ps).head? := by
  cases ps with
  | nil => exact absurd rfl hps
  | cons p ps =>
    cases h with
    | cons token _ _ =>
      obtain ⟨c, s', htext⟩ := List.exists_cons_of_ne_nil p.token.text_ne_nil
      change p.token.Reads _ _ at token
      rw [token.text, textOf_cons, htext]
      rfl

/-- A text that spells a spelling starts like it. -/
theorem Spells.head?_spelling {r : Rank} {c : Spelling r} {s : Text} {rest : List Lexeme}
    (h : Spells s (c.lexemes ++ rest)) : s.head? = c.text.head? := by
  have hne : c.pieces ≠ [] := fun hnil => c.text_ne_nil (by rw [← c.textOf_pieces, hnil, textOf_nil])
  rw [← c.textOf_pieces]
  exact h.head?_eq hne

theorem Spells.starts_terms {ts : Spelling .terms} {s : Text} {rest : List Lexeme}
    (h : Spells s (ts.lexemes ++ rest)) : ∃ c s', s = c :: s' ∧ StartsTerm c := by
  obtain ⟨c, s', htext, hc⟩ := Syntax.starts_terms ts
  have hhead := h.head?_spelling
  rw [htext] at hhead
  obtain ⟨s'', rfl⟩ := List.head?_eq_some_iff.1 hhead
  exact ⟨c, s'', rfl, hc⟩

theorem Spells.starts_branches {bs : Spelling .branches} {s : Text} {rest : List Lexeme}
    (h : Spells s (bs.lexemes ++ rest)) : ∃ s', s = .char '/' :: s' := by
  obtain ⟨s', htext⟩ := Syntax.starts_branches bs
  have hhead := h.head?_spelling
  rw [htext] at hhead
  exact List.head?_eq_some_iff.1 hhead

/-! ## Spellings without their layout -/

namespace Spelling

/-- The spelling without its layout. -/
def unlaid : {r : Rank} → Spelling r → Spelling r
  | _, reference label _ => .reference label []
  | _, literal quoted _ => .literal quoted []
  | _, regex quoted flags _ => .regex quoted flags []
  | _, group _ inner _ => .group [] inner.unlaid []
  | _, negation member => .negation member.unlaid
  | _, lookahead member => .lookahead member.unlaid
  | _, quantified member quantifier _ => .quantified member.unlaid quantifier []
  | _, plain atom => .plain atom.unlaid
  | _, last term => .last term.unlaid
  | _, more term rest => .more term.unlaid rest.unlaid
  | _, lastBranch _ terms => .lastBranch [] terms.unlaid
  | _, moreBranches _ terms rest => .moreBranches [] terms.unlaid rest.unlaid
  | _, single terms => .single terms.unlaid
  | _, choice first rest => .choice first.unlaid rest.unlaid

theorem meaning?_unlaid [Platform] : {r : Rank} → (c : Spelling r) → c.unlaid.meaning? = c.meaning?
  | _, reference _ _ | _, literal _ _ | _, regex _ _ _ => rfl
  | _, group _ inner _ => meaning?_unlaid inner
  | _, negation member | _, lookahead member | _, quantified member _ _ => by
    rw [unlaid, meaning?, meaning?_unlaid member, meaning?]
  | _, plain atom => meaning?_unlaid atom
  | _, last term => by rw [unlaid, meaning?, meaning?_unlaid term, meaning?]
  | _, more term rest => by rw [unlaid, meaning?, meaning?_unlaid term, meaning?_unlaid rest, meaning?]
  | _, lastBranch _ terms => by rw [unlaid, meaning?, meaning?_unlaid terms, meaning?]
  | _, moreBranches _ terms rest => by
    rw [unlaid, meaning?, meaning?_unlaid terms, meaning?_unlaid rest, meaning?]
  | _, single terms => by rw [unlaid, meaning?, meaning?_unlaid terms, meaning?]
  | _, choice first rest => by rw [unlaid, meaning?, meaning?_unlaid first, meaning?_unlaid rest, meaning?]

end Spelling

/-- The rule without its layout. -/
def RuleSpelling.unlaid (r : RuleSpelling) : RuleSpelling := ⟨r.label, [], [], r.body.unlaid⟩

theorem RuleSpelling.meaning?_unlaid [Platform] (r : RuleSpelling) :
    r.unlaid.meaning? = r.meaning? := by
  rw [meaning?, unlaid, Spelling.meaning?_unlaid, meaning?]

/-! ## Expressions -/

/-- Nothing of the lexemes could be taken by a spelling of the rank before them, and they do
not make a label before them that of a rule. -/
def Ends (r : Rank) (rest : List Lexeme) : Prop :=
  ∀ {s : Text}, Spells s rest → Free r s ∧ s.head? ≠ some (Codepoint.char '=')

/-- A text that spells the spelling before the rest is read as the same one but for the layout. -/
def Spelling.Reread {r : Rank} (c : Spelling r) (rest : List Lexeme) : Prop :=
  ∀ {s : Text} {fuel : Nat}, Spells s (c.lexemes ++ rest) → s.length ≤ fuel →
    ∃ c' s', readAt r fuel s = some (c', s') ∧ c'.unlaid = c.unlaid ∧ Spells s' rest

section Ends

variable {rest : List Lexeme}

theorem Ends.quantifier (q : Quantifier) (spaced : Bool) :
    Ends .atom (⟨.sign (.quantifier q), spaced⟩ :: rest) := by
  intro s hs
  obtain ⟨s', rfl, -⟩ := hs.sign
  exact ⟨trivial, by cases q <;> simp [Sign.symbol, Quantifier.symbol]⟩

theorem Ends.closing (spaced : Bool) : Ends .expression (⟨.sign .closing, spaced⟩ :: rest) := by
  intro s hs
  obtain ⟨s', rfl, -⟩ := hs.sign
  exact ⟨free_closing s', by simp [Sign.symbol]⟩

theorem Ends.terms (ts : Spelling .terms) : Ends .term (ts.lexemes ++ rest) := by
  intro s hs
  obtain ⟨c, s', rfl, hc⟩ := hs.starts_terms
  exact ⟨hc.readQuantifier s', by simp [hc.distinct.2.2.1]⟩

theorem Ends.branches (bs : Spelling .branches) : Ends .terms (bs.lexemes ++ rest) := by
  intro s hs
  obtain ⟨s', rfl⟩ := hs.starts_branches
  exact ⟨free_slash s', by simp⟩

end Ends

section Atoms

variable {rest : List Lexeme}

theorem reread_reference {label : Label} {after : Layout} (hends : Ends .atom rest) :
    (Spelling.reference label after).Reread rest := by
  intro s fuel hs _
  cases hs with
  | @cons _ s' _ _ token _ more =>
    have hlabel : readLabel s = some (label, s') := token
    refine ⟨.reference label (readLayout s').1, (readLayout s').2, ?_, rfl, more⟩
    rw [readAt, readAtom, readReference, hlabel]
    dsimp only
    rw [if_neg (hends more).2, Option.some_or]

theorem reread_literal {quoted : Quoted} {after : Layout} :
    (Spelling.literal quoted after).Reread rest := by
  intro s fuel hs _
  cases hs with
  | @cons _ s' _ _ token _ more =>
    have hquoted : readQuoted s = some (quoted, s') := token
    have hnone : readReference s = none := by
      rw [readQuoted_text hquoted]
      exact readReference_sign (by decide) _
    refine ⟨.literal quoted (readLayout s').1, (readLayout s').2, ?_, rfl, more⟩
    rw [readAt, readAtom, hnone, Option.none_or, readLiteral, hquoted, Option.some_or]

theorem reread_regex {quoted : Quoted} {flags : FlagText} {after : Layout} :
    (Spelling.regex quoted flags after).Reread rest := by
  intro s fuel hs _
  cases hs with
  | @cons _ s' _ _ token _ more =>
    obtain ⟨s₁, s₂, rfl, hquoted, hflags⟩ := token
    have hnone : readReference (.char '~' :: s₁) = none := readReference_sign (by decide) _
    have hnone' : readLiteral (.char '~' :: s₁) = none := rfl
    refine ⟨.regex quoted flags (readLayout s').1, (readLayout s').2, ?_, rfl, more⟩
    rw [readAt, readAtom, hnone, Option.none_or, hnone', Option.none_or, readRegex, hquoted]
    dsimp only
    rw [hflags, Option.some_or]

theorem reread_group {before after : Layout} {inner : Spelling .expression}
    (hinner : inner.Reread (Piece.lexeme ⟨.sign .closing, after⟩ :: rest)) :
    (Spelling.group before inner after).Reread rest := by
  intro s fuel hs hfuel
  have hsplit : (Spelling.group before inner after).lexemes ++ rest =
      Piece.lexeme ⟨.sign .opening, before⟩ ::
        (inner.lexemes ++ Piece.lexeme ⟨.sign .closing, after⟩ :: rest) := by
    simp [Spelling.lexemes, Spelling.pieces]
  rw [hsplit] at hs
  obtain ⟨s₁, rfl, hs₁⟩ := hs.sign
  rw [List.length_cons] at hfuel
  -- the parenthesis is a character, so one level less is enough for what it encloses
  obtain ⟨fuel, rfl⟩ : ∃ fuel', fuel = fuel' + 1 := ⟨fuel - 1, by omega⟩
  have hlength := length_readLayout_le s₁
  obtain ⟨e, s₂, hread, hunlaid, hs₂⟩ := hinner hs₁ (show _ ≤ fuel by omega)
  obtain ⟨s₃, rfl, hrest⟩ := hs₂.sign
  refine ⟨.group (readLayout s₁).1 e (readLayout s₃).1, (readLayout s₃).2, ?_,
    congrArg (Spelling.group [] · []) hunlaid, hrest⟩
  have hgroup : readGroup (readExpression true (fuel + 1)) (.char '(' :: s₁) =
      some (.group (readLayout s₁).1 e (readLayout s₃).1, (readLayout s₃).2) := by
    rw [readGroup, show readExpression true (fuel + 1) _ = _ from hread]
    rfl
  have hnone : readReference (.char '(' :: s₁) = none := readReference_sign (by decide) _
  show readAtom true (readExpression true (fuel + 1)) (.char '(' :: s₁) = _
  rw [readAtom, hnone, Option.none_or, if_pos rfl, hgroup]
  rfl

end Atoms

section Terms

variable {rest : List Lexeme}

theorem reread_plain {a : Spelling .atom} (h : a.Reread rest) (hends : Ends .term rest) :
    (Spelling.plain a).Reread rest := by
  intro s fuel hs hfuel
  obtain ⟨a', s', hread, hunlaid, hs'⟩ := h hs hfuel
  have hquantifier : readQuantifier s' = none := (hends hs').1
  have hatom : readAtom true (readExpression true fuel) s = some (a', s') := hread
  have htext := readAtom_text readExpression_text hatom
  refine ⟨.plain a', s', ?_, congrArg Spelling.plain hunlaid, hs'⟩
  rw [htext] at hatom ⊢
  rw [readAt, readTerm_atom, readQuantified, hatom]
  dsimp only
  rw [hquantifier]

theorem reread_quantified {a : Spelling .atom} {q : Quantifier} {after : Layout}
    (h : a.Reread (Piece.lexeme ⟨.sign (.quantifier q), after⟩ :: rest)) :
    (Spelling.quantified a q after).Reread rest := by
  intro s fuel hs hfuel
  have hsplit : (Spelling.quantified a q after).lexemes ++ rest =
      a.lexemes ++ Piece.lexeme ⟨.sign (.quantifier q), after⟩ :: rest := by
    simp [Spelling.lexemes, Spelling.pieces]
  rw [hsplit] at hs
  obtain ⟨a', s', hread, hunlaid, hs'⟩ := h hs hfuel
  obtain ⟨s'', rfl, hrest⟩ := hs'.sign
  have hatom : readAtom true (readExpression true fuel) s = some (a', q.symbol :: s'') := hread
  have htext := readAtom_text readExpression_text hatom
  refine ⟨.quantified a' q (readLayout s'').1, (readLayout s'').2, ?_, ?_, hrest⟩
  · rw [htext] at hatom ⊢
    rw [readAt, readTerm_atom, readQuantified, hatom]
    dsimp only
    rw [readQuantifier_symbol]
  · exact congrArg (Spelling.quantified · q []) hunlaid

theorem reread_negation {t : Spelling .term} (h : t.Reread rest) :
    (Spelling.negation t).Reread rest := by
  intro s fuel hs hfuel
  obtain ⟨s', rfl, hs'⟩ := Spells.mark (g := .negation) rfl hs
  obtain ⟨t', s'', hread, hunlaid, hrest⟩ := h hs' (Nat.le_of_succ_le hfuel)
  have hterm : readTerm true (readExpression true fuel) s' = some (t', s'') := hread
  refine ⟨.negation t', s'', ?_, congrArg Spelling.negation hunlaid, hrest⟩
  show readTerm true (readExpression true fuel) (.char '!' :: s') = some (.negation t', s'')
  rw [readTerm, if_pos rfl, hterm]
  rfl

theorem reread_lookahead {t : Spelling .term} (h : t.Reread rest) :
    (Spelling.lookahead t).Reread rest := by
  intro s fuel hs hfuel
  obtain ⟨s', rfl, hs'⟩ := Spells.mark (g := .lookahead) rfl hs
  obtain ⟨t', s'', hread, hunlaid, hrest⟩ := h hs' (Nat.le_of_succ_le hfuel)
  have hterm : readTerm true (readExpression true fuel) s' = some (t', s'') := hread
  refine ⟨.lookahead t', s'', ?_, congrArg Spelling.lookahead hunlaid, hrest⟩
  show readTerm true (readExpression true fuel) (.char '&' :: s') = some (.lookahead t', s'')
  rw [readTerm, if_neg (by decide), if_pos rfl, if_pos rfl, hterm]
  rfl

theorem reread_last {t : Spelling .term} (h : t.Reread rest) (hends : Ends .terms rest) :
    (Spelling.last t).Reread rest := by
  intro s fuel hs hfuel
  obtain ⟨t', s', hread, hunlaid, hrest⟩ := h hs hfuel
  have hlast := readTerms_last hread ((hends hrest).1.2 _)
  exact ⟨.last t', s', hlast, congrArg Spelling.last hunlaid, hrest⟩

theorem reread_more {t : Spelling .term} {ts : Spelling .terms} (h : t.Reread (ts.lexemes ++ rest))
    (hmore : ts.Reread rest) : (Spelling.more t ts).Reread rest := by
  intro s fuel hs hfuel
  have hsplit : (Spelling.more t ts).lexemes ++ rest = t.lexemes ++ (ts.lexemes ++ rest) := by
    simp [Spelling.lexemes, Spelling.pieces]
  rw [hsplit] at hs
  obtain ⟨t', s₁, hread, hunlaid, hs₁⟩ := h hs hfuel
  have hlength := congrArg List.length (readTerm_text readExpression_text hread)
  rw [List.length_append] at hlength
  obtain ⟨ts', s₂, hread', hunlaid', hrest⟩ := hmore hs₁ (show _ ≤ fuel by omega)
  have hterms := congr (congrArg Spelling.more hunlaid) hunlaid'
  exact ⟨.more t' ts', s₂, readTerms_more hread hread', hterms, hrest⟩

end Terms

section Expressions

variable {rest : List Lexeme}

/-- A slash and the terms after it are read as a branch. -/
theorem reread_branch {before : Layout} {ts : Spelling .terms} (h : ts.Reread rest) {s : Text}
    {fuel : Nat} (hs : Spells s (Piece.lexeme ⟨.sign .slash, before⟩ :: (ts.lexemes ++ rest)))
    (hfuel : s.length ≤ fuel) : ∃ before' ts' s',
      readBranch true (readExpression true fuel) s = some ((before', ts'), s') ∧
        ts'.unlaid = ts.unlaid ∧ Spells s' rest := by
  obtain ⟨s₁, rfl, hs₁⟩ := hs.sign
  have hlength := length_readLayout_le s₁
  rw [List.length_cons] at hfuel
  obtain ⟨ts', s', hread, hunlaid, hs'⟩ := h hs₁ (show _ ≤ fuel by omega)
  have hterms : readTerms true (readExpression true fuel) (readLayout s₁).2 = some (ts', s') := hread
  refine ⟨(readLayout s₁).1, ts', s', ?_, hunlaid, hs'⟩
  show readBranch true (readExpression true fuel) (.char '/' :: s₁) = _
  rw [readBranch, hterms]
  rfl

theorem reread_lastBranch {before : Layout} {ts : Spelling .terms} (h : ts.Reread rest)
    (hends : Ends .branches rest) : (Spelling.lastBranch before ts).Reread rest := by
  intro s fuel hs hfuel
  obtain ⟨before', ts', s', hread, hunlaid, hrest⟩ := reread_branch h hs hfuel
  have hlast := readBranches_last hread ((hends hrest).1.2.2 _)
  exact ⟨_, s', hlast, congrArg (Spelling.lastBranch []) hunlaid, hrest⟩

theorem reread_moreBranches {before : Layout} {ts : Spelling .terms} {bs : Spelling .branches}
    (h : ts.Reread (bs.lexemes ++ rest)) (hmore : bs.Reread rest) :
    (Spelling.moreBranches before ts bs).Reread rest := by
  intro s fuel hs hfuel
  have hsplit : (Spelling.moreBranches before ts bs).lexemes ++ rest =
      Piece.lexeme ⟨.sign .slash, before⟩ :: (ts.lexemes ++ (bs.lexemes ++ rest)) := by
    simp [Spelling.lexemes, Spelling.pieces]
  rw [hsplit] at hs
  obtain ⟨before', ts', s₁, hread, hunlaid, hs₁⟩ := reread_branch h hs hfuel
  have hlength := congrArg List.length (readBranch_text readExpression_text hread)
  rw [List.length_append] at hlength
  obtain ⟨bs', s₂, hread', hunlaid', hrest⟩ := hmore hs₁ (show _ ≤ fuel by omega)
  have hbranches := congr (congrArg (Spelling.moreBranches []) hunlaid) hunlaid'
  exact ⟨_, s₂, readBranches_more hread hread', hbranches, hrest⟩

theorem reread_single {ts : Spelling .terms} (h : ts.Reread rest) (hends : Ends .expression rest) :
    (Spelling.single ts).Reread rest := by
  intro s fuel hs hfuel
  obtain ⟨ts', s', hread, hunlaid, hrest⟩ := h hs hfuel
  have hterms : readTerms true (readExpression true fuel) s = some (ts', s') := hread
  have hbranches : readBranches true (readExpression true fuel) s' = none := by
    rw [readBranches, many_none ((hends hrest).1.2.2 _)]
  refine ⟨.single ts', s', ?_, congrArg Spelling.single hunlaid, hrest⟩
  rw [readAt, readExpression, readChoice_eq, hterms, Option.bind_some]
  dsimp only
  rw [hbranches]
  rfl

theorem reread_choice {ts : Spelling .terms} {bs : Spelling .branches}
    (h : ts.Reread (bs.lexemes ++ rest)) (hmore : bs.Reread rest) :
    (Spelling.choice ts bs).Reread rest := by
  intro s fuel hs hfuel
  have hsplit : (Spelling.choice ts bs).lexemes ++ rest = ts.lexemes ++ (bs.lexemes ++ rest) := by
    simp [Spelling.lexemes, Spelling.pieces]
  rw [hsplit] at hs
  obtain ⟨ts', s₁, hread, hunlaid, hs₁⟩ := h hs hfuel
  have hterms : readTerms true (readExpression true fuel) s = some (ts', s₁) := hread
  have hlength := congrArg List.length (readTerms_text readExpression_text hterms)
  rw [List.length_append] at hlength
  obtain ⟨bs', s₂, hread', hunlaid', hrest⟩ := hmore hs₁ (show _ ≤ fuel by omega)
  have hbranches : readBranches true (readExpression true fuel) s₁ = some (bs', s₂) := hread'
  have hchoice : Spelling.choice ts'.unlaid bs'.unlaid = Spelling.choice ts.unlaid bs.unlaid :=
    congr (congrArg Spelling.choice hunlaid) hunlaid'
  refine ⟨.choice ts' bs', s₂, ?_, hchoice, hrest⟩
  rw [readAt, readExpression, readChoice_eq, hterms, Option.bind_some]
  dsimp only
  rw [hbranches]
  rfl

end Expressions

/-- A spelling is read again from any text that spells it, up to what ends it. -/
theorem Spelling.reread : {r : Rank} → (c : Spelling r) → ∀ {rest : List Lexeme}, Ends r rest →
    c.Reread rest
  | _, reference _ _, _, hends => reread_reference hends
  | _, literal _ _, _, _ => reread_literal
  | _, regex _ _ _, _, _ => reread_regex
  | _, group _ inner _, _, _ => reread_group (inner.reread (Ends.closing _))
  | _, negation member, _, hends => reread_negation (member.reread hends)
  | _, lookahead member, _, hends => reread_lookahead (member.reread hends)
  | _, quantified member _ _, _, _ => reread_quantified (member.reread (Ends.quantifier _ _))
  | _, plain atom, _, hends => reread_plain (atom.reread fun hs => ⟨trivial, (hends hs).2⟩) hends
  | _, last term, _, hends =>
    reread_last (term.reread fun hs => ⟨(hends hs).1.1, (hends hs).2⟩) hends
  | _, more term terms, _, hends => reread_more (term.reread (Ends.terms terms)) (terms.reread hends)
  | _, lastBranch _ terms, _, hends =>
    reread_lastBranch (terms.reread fun hs => ⟨⟨(hends hs).1.1, (hends hs).1.2.1⟩, (hends hs).2⟩) hends
  | _, moreBranches _ terms branches, _, hends =>
    reread_moreBranches (terms.reread (Ends.branches branches)) (branches.reread hends)
  | _, single terms, _, hends =>
    reread_single (terms.reread fun hs => ⟨⟨(hends hs).1.1, (hends hs).1.2.1⟩, (hends hs).2⟩) hends
  | _, choice first branches, _, hends =>
    reread_choice (first.reread (Ends.branches branches)) (branches.reread hends)

/-! ## Rules -/

/-- A label before an equals sign starts neither a term nor a branch. -/
theorem Ends.rule (r : RuleSpelling) (rest : List Lexeme) : Ends .expression (r.lexemes ++ rest) := by
  intro s hs
  cases hs with
  | @cons _ s' _ _ token _ more =>
    have hlabel : readLabel s = some (r.label, s') := token
    have hequals : (readLayout s').2.head? = some (Codepoint.char '=') := more.head?_eq_equals.2 ⟨_, _, rfl⟩
    have hreference : readReference s = none := by
      rw [readReference, hlabel]
      exact if_pos hequals
    have hs := readLabel_text hlabel
    rw [hs] at hreference ⊢
    refine ⟨free_label r.label hreference, ?_⟩
    rw [Label.text, List.cons_append, List.head?_cons, ne_eq, Option.some.injEq]
    exact ne_of_labelStart r.label.first_ok (by decide)

theorem Ends.nil : Ends .expression [] := by
  intro s hs
  rw [hs.eq_nil]
  exact ⟨free_nil, nofun⟩

theorem Ends.rules : ∀ rs : List RuleSpelling, Ends .expression (rs.flatMap RuleSpelling.lexemes)
  | [] => Ends.nil
  | r :: rs => Ends.rule r (rs.flatMap RuleSpelling.lexemes)

/-- A rule is read again from any text that spells it. -/
theorem RuleSpelling.reread (r : RuleSpelling) {rest : List Lexeme} (hends : Ends .expression rest)
    {s : Text} (hs : Spells s (r.lexemes ++ rest)) :
    ∃ r' s', readRule true s = some (r', s') ∧ r'.unlaid = r.unlaid ∧ Spells s' rest := by
  cases hs with
  | @cons _ s₁ _ _ token _ more =>
    have hlabel : readLabel s = some (r.label, s₁) := token
    obtain ⟨s₂, hequals, hs₂⟩ := Spells.sign more
    obtain ⟨e, s₃, hread, hunlaid, hrest⟩ := r.body.reread hends hs₂ (length_readLayout_le s₂)
    have hbody : readExpression true (s₂.length + 1) (readLayout s₂).2 = some (e, s₃) := hread
    refine ⟨⟨r.label, (readLayout s₁).1, (readLayout s₂).1, e⟩, s₃, ?_, ?_, hrest⟩
    · rw [readRule, hlabel]
      dsimp only
      rw [hequals]
      simp only [Sign.symbol, hbody, Option.map_some]
    · rw [unlaid, unlaid, hunlaid]

/-- Rules are read again, one by one, from any text that spells them. -/
theorem reread_rules : ∀ (rs : List RuleSpelling) {s : Text},
    Spells s (rs.flatMap RuleSpelling.lexemes) → ∃ rs', many (readRule true) s.length s = (rs', []) ∧
      rs'.map RuleSpelling.unlaid = rs.map RuleSpelling.unlaid
  | [], s, hs => by
    rw [hs.eq_nil]
    exact ⟨[], rfl, rfl⟩
  | r :: rs, s, hs => by
    obtain ⟨r', s', hread, hunlaid, hs'⟩ := r.reread (Ends.rules rs) hs
    obtain ⟨rs', hmany, hmore⟩ := reread_rules rs hs'
    refine ⟨r' :: rs', ?_, by rw [List.map_cons, List.map_cons, hunlaid, hmore]⟩
    rw [many_cons readRule_text RuleSpelling.text_ne_nil hread, hmany]

/-- A definition text is read to its end if it spells rules behind the layout at its start. -/
theorem exists_read_of_spells {r : RuleSpelling} {rs : List RuleSpelling} {s : Text}
    (hs : Spells (readLayout s).2 ((r :: rs).flatMap RuleSpelling.lexemes)) :
    ∃ r', readRules true s = some (r', []) ∧
      r'.rules.map RuleSpelling.unlaid = (r :: rs).map RuleSpelling.unlaid := by
  obtain ⟨rs', hmany, hunlaid⟩ := reread_rules (r :: rs) hs
  cases rs' with
  | nil => cases hunlaid
  | cons r' rs' => exact ⟨⟨(readLayout s).1, r', rs'⟩, by rw [readRules, hmany], hunlaid⟩

/-- A text is read to its end, as rules that stand for what the given rules do. -/
def ReadsAs [Platform] (s : Text) (rs : List RuleSpelling) : Prop :=
  ∃ r, readRules true s = some (r, []) ∧
    r.rules.map RuleSpelling.meaning? = rs.map RuleSpelling.meaning?

/-- The rules that are read stand for what they did, since layout stands for nothing. -/
theorem readsAs_of_spells [Platform] {r : RuleSpelling} {rs : List RuleSpelling} {s : Text}
    (hs : Spells (readLayout s).2 ((r :: rs).flatMap RuleSpelling.lexemes)) : ReadsAs s (r :: rs) := by
  obtain ⟨r', hread, hunlaid⟩ := exists_read_of_spells hs
  have hsame : RuleSpelling.meaning? ∘ RuleSpelling.unlaid = RuleSpelling.meaning? :=
    funext RuleSpelling.meaning?_unlaid
  have hmeaning := congrArg (List.map RuleSpelling.meaning?) hunlaid
  rw [List.map_map, List.map_map, hsame] at hmeaning
  exact ⟨r', hread, hmeaning⟩

end Pegboard.Syntax
