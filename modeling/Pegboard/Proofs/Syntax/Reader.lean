import Pegboard.Proofs.Syntax.Spelling

/-!
# Reading a definition text by descent

The definition language can be read without going back: what comes next is decided by the
next token.  The readers here give a spelling and what is left of the text.  `full` says
whether the whole language is read, or only the part of it without lookahead and
parentheses.

A reader of nested expressions takes the reader of the inner ones, so that the recursion is
in one place (`readExpression`) and bounded by a number.  A number past the length of the
text is enough.

What is read and what is left make up the text (`readExpression_text` and its like).
-/

namespace Pegboard.Syntax

open Regex

/-- Reads over and over, as long as there is something to read and at most so many times. -/
def many {α : Type} (step : Text → Option (α × Text)) : Nat → Text → List α × Text
  | 0, s => ([], s)
  | fuel + 1, s =>
    match step s with
    | none => ([], s)
    | some (a, rest) => (a :: (many step fuel rest).1, (many step fuel rest).2)

theorem many_none {α : Type} {step : Text → Option (α × Text)} {s : Text} (h : step s = none)
    (fuel : Nat) : many step fuel s = ([], s) := by
  cases fuel with
  | zero => rfl
  | succ fuel => rw [many, h]

/-- Nothing that is read over and over leaves the text as it is. -/
theorem many_nil {α : Type} {step : Text → Option (α × Text)} {fuel : Nat} {s rest : Text}
    (h : many step fuel s = ([], rest)) : s = rest := by
  cases fuel with
  | zero =>
    cases h
    rfl
  | succ fuel =>
    rw [many] at h
    split at h <;> cases h
    rfl

/-! ## Tokens -/

theorem takeWhile_ok {p : Codepoint → Bool} : ∀ {s : Text}
    {c : Codepoint}, c ∈ s.takeWhile p → p c = true
  | d :: s, c, h => by
    rw [List.takeWhile_cons] at h
    split at h
    · next hd =>
      rcases List.mem_cons.1 h with rfl | h
      · exact hd
      · exact takeWhile_ok h
    · cases h

/-- Reads a label. -/
def readLabel : Text → Option (Label × Text)
  | [] => none
  | c :: s =>
    if h : labelStart.holds c = true then
      some (⟨c, s.takeWhile labelRest.holds, h, fun _ => takeWhile_ok⟩, s.dropWhile labelRest.holds)
    else none

theorem scanBody_closed : ∀ {s body rest : Text}, scanBody s = some (body, rest) →
    s = body ++ .char '"' :: rest ∧ ∀ rest', scanBody (body ++ .char '"' :: rest') = some (body, rest')
  | [], body, rest, h => by
    rw [scanBody] at h
    cases h
  | c :: s, body, rest, h => by
    by_cases hc : plain.holds c = true
    · rw [scanBody_plain hc] at h
      obtain ⟨⟨body', rest'⟩, hs, heq⟩ := Option.map_eq_some_iff.1 h
      cases heq
      obtain ⟨rfl, hclosed⟩ := scanBody_closed hs
      exact ⟨rfl, fun r => by rw [List.cons_append, scanBody_plain hc, hclosed]; rfl⟩
    · rcases not_plain hc with rfl | rfl
      · rw [scanBody_quote] at h
        cases h
        exact ⟨rfl, fun r => scanBody_quote r⟩
      · cases s with
        | nil => cases h
        | cons d s =>
          rw [scanBody_escape] at h
          obtain ⟨⟨body', rest'⟩, hs, heq⟩ := Option.map_eq_some_iff.1 h
          cases heq
          obtain ⟨rfl, hclosed⟩ := scanBody_closed hs
          exact ⟨rfl, fun r => by rw [List.cons_append, List.cons_append, scanBody_escape, hclosed]; rfl⟩

/-- Reads a quoted text. -/
def readQuoted : Text → Option (Quoted × Text)
  | [] => none
  | c :: s =>
    if c = '"' then
      match h : scanBody s with
      | none => none
      | some (body, rest) => some (⟨body, (scanBody_closed h).2⟩, rest)
    else none

/-- Reads flags. -/
def readFlags (s : Text) : FlagText × Text :=
  (⟨s.takeWhile flagLetter.holds, fun _ => takeWhile_ok⟩, s.dropWhile flagLetter.holds)

/-- Reads a quantifier. -/
def readQuantifier : Text → Option (Quantifier × Text)
  | .char '?' :: s => some (.optional, s)
  | .char '*' :: s => some (.star, s)
  | .char '+' :: s => some (.plus, s)
  | _ => none

/-- Reads white space or a comment. -/
def readBlank : Text → Option (Blank × Text)
  | [] => none
  | c :: s =>
    if h : space.holds c = true then
      some (.spaces c (s.takeWhile space.holds) (List.forall_mem_cons.2 ⟨h, fun _ => takeWhile_ok⟩),
        s.dropWhile space.holds)
    else if c = '#' then
      some (.comment (s.takeWhile unbroken.holds) fun _ => takeWhile_ok, s.dropWhile unbroken.holds)
    else none

/-- Reads white space and comments. -/
def readLayout (s : Text) : Layout × Text := many readBlank s.length s

/-! ## Expressions -/

section

variable (full : Bool) (inner : Text → Option (Spelling .expression × Text))

/-- Reads a reference, which no equals sign may follow. -/
def readReference (s : Text) : Option (Spelling .atom × Text) :=
  match readLabel s with
  | none => none
  | some (label, s) =>
    if (readLayout s).2.head? = some (Codepoint.char '=') then none
    else some (.reference label (readLayout s).1, (readLayout s).2)

/-- Reads a literal. -/
def readLiteral (s : Text) : Option (Spelling .atom × Text) :=
  match readQuoted s with
  | none => none
  | some (quoted, s) => some (.literal quoted (readLayout s).1, (readLayout s).2)

/-- Reads a pattern. -/
def readRegex : Text → Option (Spelling .atom × Text)
  | .char '~' :: s =>
    match readQuoted s with
    | none => none
    | some (quoted, s) =>
      some (.regex quoted (readFlags s).1 (readLayout (readFlags s).2).1,
        (readLayout (readFlags s).2).2)
  | _ => none

/-- Reads an expression in parentheses. -/
def readGroup : Text → Option (Spelling .atom × Text)
  | .char '(' :: s =>
    match inner (readLayout s).2 with
    | some (e, .char ')' :: rest) =>
      some (.group (readLayout s).1 e (readLayout rest).1, (readLayout rest).2)
    | _ => none
  | _ => none

/-- Reads an atom. -/
def readAtom (s : Text) : Option (Spelling .atom × Text) :=
  (readReference s).or <| (readLiteral s).or <| (readRegex s).or <|
    if full then readGroup inner s else none

/-- Reads an atom and the quantifier after it, if there is one. -/
def readQuantified (s : Text) : Option (Spelling .term × Text) :=
  match readAtom full inner s with
  | none => none
  | some (atom, s) =>
    match readQuantifier s with
    | none => some (.plain atom, s)
    | some (quantifier, rest) =>
      some (.quantified atom quantifier (readLayout rest).1, (readLayout rest).2)

/-- Reads a term. -/
def readTerm : Text → Option (Spelling .term × Text)
  | [] => none
  | c :: s =>
    if c = '!' then (readTerm s).map fun (member, rest) => (.negation member, rest)
    else if c = '&' then
      if full then (readTerm s).map fun (member, rest) => (.lookahead member, rest) else none
    else readQuantified full inner (c :: s)

/-- Reads the terms of an alternative. -/
def readTerms (s : Text) : Option (Spelling .terms × Text) :=
  match many (readTerm full inner) s.length s with
  | ([], _) => none
  | (t :: ts, rest) => some (.ofTerms t ts, rest)

/-- Reads a slash and an alternative. -/
def readBranch : Text → Option ((Layout × Spelling .terms) × Text)
  | .char '/' :: s => (readTerms full inner (readLayout s).2).map fun (terms, rest) =>
      (((readLayout s).1, terms), rest)
  | _ => none

/-- Reads an expression, given the reader of those inside parentheses. -/
def readChoice (s : Text) : Option (Spelling .expression × Text) :=
  match readTerms full inner s with
  | none => none
  | some (terms, s) =>
    match many (readBranch full inner) s.length s with
    | ([], _) => some (.single terms, s)
    | (b :: bs, rest) => some (.choice terms (.ofBranches b bs), rest)

end

/-- Reads an expression with parentheses nested up to a depth. -/
def readExpression (full : Bool) : Nat → Text → Option (Spelling .expression × Text)
  | 0, _ => none
  | fuel + 1, s => readChoice full (readExpression full fuel) s

/-! ## Rules -/

/-- Reads a rule. -/
def readRule (full : Bool) (s : Text) : Option (RuleSpelling × Text) :=
  match readLabel s with
  | none => none
  | some (label, s) =>
    match (readLayout s).2 with
    | .char '=' :: rest =>
      (readExpression full (rest.length + 1) (readLayout rest).2).map fun (body, rest') =>
        (⟨label, (readLayout s).1, (readLayout rest).1, body⟩, rest')
    | _ => none

/-- Reads a definition text. -/
def readRules (full : Bool) (s : Text) : Option (RulesSpelling × Text) :=
  match many (readRule full) (readLayout s).2.length (readLayout s).2 with
  | ([], _) => none
  | (r :: rs, rest) => some (⟨(readLayout s).1, r, rs⟩, rest)

/-! ## What is read and what is left make up the text -/

theorem many_text {α : Type} {step : Text → Option (α × Text)} {text : α → Text}
    (h : ∀ {s a rest}, step s = some (a, rest) → s = text a ++ rest) : ∀ (fuel : Nat) (s : Text),
    s = (many step fuel s).1.flatMap text ++ (many step fuel s).2
  | 0, s => rfl
  | fuel + 1, s => by
    rw [many]
    split
    · rfl
    · next a rest hstep =>
      have ih := many_text h fuel rest
      rw [List.flatMap_cons, List.append_assoc, ← ih, ← h hstep]

theorem readLabel_text {s : Text} {label : Label} {rest : Text}
    (h : readLabel s = some (label, rest)) : s = label.text ++ rest := by
  unfold readLabel at h
  split at h
  · cases h
  · split at h
    · cases h
      rw [Label.text, List.cons_append, List.takeWhile_append_dropWhile]
    · cases h

theorem readQuoted_text {s : Text} {quoted : Quoted} {rest : Text}
    (h : readQuoted s = some (quoted, rest)) : s = quoted.text ++ rest := by
  unfold readQuoted at h
  split at h
  · cases h
  · split at h
    · next hc =>
      split at h
      · cases h
      · next body rest' hbody =>
        cases h
        rw [Quoted.text, hc, List.cons_append, List.append_assoc]
        exact congrArg (.char '"' :: ·) (scanBody_closed hbody).1
    · cases h

theorem readFlags_text (s : Text) : s = (readFlags s).1.text ++ (readFlags s).2 :=
  List.takeWhile_append_dropWhile.symm

theorem readQuantifier_text {s : Text} {q : Quantifier} {rest : Text}
    (h : readQuantifier s = some (q, rest)) : s = q.symbol :: rest := by
  unfold readQuantifier at h
  split at h
  · cases h
    rfl
  · cases h
    rfl
  · cases h
    rfl
  · cases h

theorem readBlank_text {s : Text} {b : Blank} {rest : Text} (h : readBlank s = some (b, rest)) :
    s = b.text ++ rest := by
  unfold readBlank at h
  split at h
  · cases h
  · split at h
    · cases h
      rw [Blank.text, List.cons_append, List.takeWhile_append_dropWhile]
    · split at h
      · next hc =>
        cases h
        rw [Blank.text, List.cons_append, List.takeWhile_append_dropWhile, hc]
      · cases h

theorem readLayout_text (s : Text) : s = Layout.text (readLayout s).1 ++ (readLayout s).2 :=
  many_text readBlank_text s.length s

/-- A reader that takes something each time is repeated until it finds nothing. -/
theorem many_stops {α : Type} {step : Text → Option (α × Text)} {text : α → Text}
    (htext : ∀ {s a rest}, step s = some (a, rest) → s = text a ++ rest)
    (hne : ∀ a, text a ≠ []) : ∀ (fuel : Nat) (s : Text), s.length ≤ fuel →
      step (many step fuel s).2 = none
  | 0, s, hfuel => by
    rw [many]
    rcases hstep : step s with _ | ⟨a, rest⟩
    · rfl
    · have hnil : s = [] := List.length_eq_zero_iff.1 (Nat.le_zero.1 hfuel)
      rw [hnil] at hstep
      exact absurd (List.append_eq_nil_iff.1 (htext hstep).symm).1 (hne a)
  | fuel + 1, s, hfuel => by
    rw [many]
    split
    · next hstep => exact hstep
    · next a rest hstep =>
      refine many_stops htext hne fuel rest ?_
      have hlength := congrArg List.length (htext hstep)
      have hpos := List.length_pos_iff.2 (hne a)
      rw [List.length_append] at hlength
      omega

/-- Nothing is read over and over only where nothing can be read. -/
theorem many_eq_nil {α : Type} {step : Text → Option (α × Text)} {text : α → Text}
    (htext : ∀ {s a rest}, step s = some (a, rest) → s = text a ++ rest)
    (hne : ∀ a, text a ≠ []) {fuel : Nat} {s rest : Text} (hfuel : s.length ≤ fuel)
    (h : many step fuel s = ([], rest)) : rest = s ∧ step s = none := by
  have hrest := many_nil h
  have hstop := many_stops htext hne fuel s hfuel
  rw [h, ← hrest] at hstop
  exact ⟨hrest.symm, hstop⟩

theorem Blank.text_ne_nil : (b : Blank) → b.text ≠ []
  | .spaces _ _ _ => List.cons_ne_nil _ _
  | .comment _ _ => List.cons_ne_nil _ _

/-- No layout is left after layout. -/
theorem readBlank_readLayout (s : Text) : readBlank (readLayout s).2 = none :=
  many_stops readBlank_text Blank.text_ne_nil s.length s (Nat.le_refl _)

theorem readLayout_of_none {s : Text} (h : readBlank s = none) : readLayout s = ([], s) :=
  many_none h s.length

section

variable {full : Bool} {inner : Text → Option (Spelling .expression × Text)}
  (hinner : ∀ {s e rest}, inner s = some (e, rest) → s = e.text ++ rest)

theorem readReference_text {s : Text} {a : Spelling .atom} {rest : Text}
    (h : readReference s = some (a, rest)) : s = a.text ++ rest := by
  unfold readReference at h
  split at h
  · cases h
  · next label s' hlabel =>
    split at h
    · cases h
    · cases h
      rw [Spelling.text, List.append_assoc, ← readLayout_text, readLabel_text hlabel]

theorem readLiteral_text {s : Text} {a : Spelling .atom} {rest : Text}
    (h : readLiteral s = some (a, rest)) : s = a.text ++ rest := by
  unfold readLiteral at h
  split at h
  · cases h
  · next quoted s' hquoted =>
    cases h
    rw [Spelling.text, List.append_assoc, ← readLayout_text, readQuoted_text hquoted]

theorem readRegex_text {s : Text} {a : Spelling .atom} {rest : Text}
    (h : readRegex s = some (a, rest)) : s = a.text ++ rest := by
  unfold readRegex at h
  split at h
  · split at h
    · cases h
    · next quoted s' hquoted =>
      cases h
      rw [Spelling.text, List.cons_append, List.append_assoc, List.append_assoc, ← readLayout_text,
        ← readFlags_text, readQuoted_text hquoted]
  · cases h

include hinner

theorem readGroup_text {s : Text} {a : Spelling .atom} {rest : Text}
    (h : readGroup inner s = some (a, rest)) : s = a.text ++ rest := by
  unfold readGroup at h
  split at h
  · next s' =>
    split at h
    · next e rest' he =>
      cases h
      rw [Spelling.text, List.cons_append, List.append_assoc, List.append_assoc, List.cons_append,
        ← readLayout_text, ← hinner he, ← readLayout_text]
    · cases h
  · cases h

theorem readAtom_text {s : Text} {a : Spelling .atom} {rest : Text}
    (h : readAtom full inner s = some (a, rest)) : s = a.text ++ rest := by
  unfold readAtom at h
  rcases Option.or_eq_some_iff.1 h with h | ⟨-, h⟩
  · exact readReference_text h
  rcases Option.or_eq_some_iff.1 h with h | ⟨-, h⟩
  · exact readLiteral_text h
  rcases Option.or_eq_some_iff.1 h with h | ⟨-, h⟩
  · exact readRegex_text h
  split at h
  · exact readGroup_text hinner h
  · cases h

theorem readQuantified_text {s : Text} {t : Spelling .term} {rest : Text}
    (h : readQuantified full inner s = some (t, rest)) : s = t.text ++ rest := by
  unfold readQuantified at h
  split at h
  · cases h
  · next atom s' hatom =>
    split at h
    · cases h
      exact readAtom_text hinner hatom
    · next q rest' hq =>
      cases h
      rw [Spelling.text, List.append_assoc, List.cons_append, ← readLayout_text,
        ← readQuantifier_text hq]
      exact readAtom_text hinner hatom

theorem readTerm_text : ∀ {s : Text} {t : Spelling .term} {rest : Text},
    readTerm full inner s = some (t, rest) → s = t.text ++ rest
  | [], t, rest, h => by cases h
  | c :: s, t, rest, h => by
    rw [readTerm] at h
    split at h
    · next hc =>
      obtain ⟨⟨member, rest'⟩, hmember, heq⟩ := Option.map_eq_some_iff.1 h
      cases heq
      rw [Spelling.text, List.cons_append, ← readTerm_text hmember, hc]
    · split at h
      · next hc =>
        split at h
        · obtain ⟨⟨member, rest'⟩, hmember, heq⟩ := Option.map_eq_some_iff.1 h
          cases heq
          rw [Spelling.text, List.cons_append, ← readTerm_text hmember, hc]
        · cases h
      · exact readQuantified_text hinner h

theorem readTerms_text {s : Text} {ts : Spelling .terms} {rest : Text}
    (h : readTerms full inner s = some (ts, rest)) : s = ts.text ++ rest := by
  have htext := many_text (@readTerm_text full inner hinner) s.length s
  unfold readTerms at h
  split at h
  · cases h
  · next t ts' rest' hmany =>
    cases h
    rw [hmany] at htext
    rw [Spelling.text_ofTerms]
    exact htext

theorem readBranch_text {s : Text} {b : Layout × Spelling .terms} {rest : Text}
    (h : readBranch full inner s = some (b, rest)) : s = Spelling.branchText b ++ rest := by
  unfold readBranch at h
  split at h
  · obtain ⟨⟨terms, rest'⟩, hterms, heq⟩ := Option.map_eq_some_iff.1 h
    cases heq
    rw [Spelling.branchText, List.cons_append, List.append_assoc, ← readTerms_text hinner hterms,
      ← readLayout_text]
  · cases h

theorem readChoice_text {s : Text} {e : Spelling .expression} {rest : Text}
    (h : readChoice full inner s = some (e, rest)) : s = e.text ++ rest := by
  unfold readChoice at h
  split at h
  · cases h
  · next terms s' hterms =>
    have htext := many_text (@readBranch_text full inner hinner) s'.length s'
    split at h
    · cases h
      exact readTerms_text hinner hterms
    · next b bs rest' hmany =>
      cases h
      rw [hmany] at htext
      rw [Spelling.text, List.append_assoc, Spelling.text_ofBranches]
      dsimp only at htext
      rw [← htext]
      exact readTerms_text hinner hterms

omit hinner

theorem readBlank_readAtom {s : Text} {a : Spelling .atom} {rest : Text}
    (h : readAtom full inner s = some (a, rest)) : readBlank rest = none := by
  unfold readAtom at h
  rcases Option.or_eq_some_iff.1 h with h | ⟨-, h⟩
  · unfold readReference at h
    split at h
    · cases h
    · split at h
      · cases h
      · cases h
        exact readBlank_readLayout _
  rcases Option.or_eq_some_iff.1 h with h | ⟨-, h⟩
  · unfold readLiteral at h
    split at h
    · cases h
    · cases h
      exact readBlank_readLayout _
  rcases Option.or_eq_some_iff.1 h with h | ⟨-, h⟩
  · unfold readRegex at h
    split at h
    · split at h
      · cases h
      · cases h
        exact readBlank_readLayout _
    · cases h
  split at h
  · unfold readGroup at h
    split at h
    · split at h
      · cases h
        exact readBlank_readLayout _
      · cases h
    · cases h
  · cases h

/-- A term takes the layout after it. -/
theorem readBlank_readTerm : ∀ {s : Text} {t : Spelling .term} {rest : Text},
    readTerm full inner s = some (t, rest) → readBlank rest = none
  | [], t, rest, h => by cases h
  | c :: s, t, rest, h => by
    rw [readTerm] at h
    split at h
    · obtain ⟨⟨member, rest'⟩, hmember, heq⟩ := Option.map_eq_some_iff.1 h
      cases heq
      exact readBlank_readTerm hmember
    · split at h
      · split at h
        · obtain ⟨⟨member, rest'⟩, hmember, heq⟩ := Option.map_eq_some_iff.1 h
          cases heq
          exact readBlank_readTerm hmember
        · cases h
      · unfold readQuantified at h
        split at h
        · cases h
        · next hatom =>
          split at h
          · cases h
            exact readBlank_readAtom hatom
          · cases h
            exact readBlank_readLayout _

end

theorem readExpression_text {full : Bool} : ∀ {fuel : Nat} {s : Text} {e : Spelling .expression}
    {rest : Text}, readExpression full fuel s = some (e, rest) → s = e.text ++ rest
  | 0, _, _, _, h => by cases h
  | fuel + 1, s, e, rest, h => readChoice_text readExpression_text h

theorem readRule_text {full : Bool} {s : Text} {r : RuleSpelling} {rest : Text}
    (h : readRule full s = some (r, rest)) : s = r.text ++ rest := by
  unfold readRule at h
  split at h
  · cases h
  · next label s' hlabel =>
    split at h
    · next rest' hequals =>
      obtain ⟨⟨body, rest''⟩, hbody, heq⟩ := Option.map_eq_some_iff.1 h
      cases heq
      rw [RuleSpelling.text, List.append_assoc, List.append_assoc, List.cons_append,
        List.append_assoc, ← readExpression_text hbody, ← readLayout_text, ← hequals,
        ← readLayout_text, ← readLabel_text hlabel]
    · cases h

theorem readRules_text {full : Bool} {s : Text} {r : RulesSpelling} {rest : Text}
    (h : readRules full s = some (r, rest)) : s = r.text ++ rest := by
  have htext := many_text (@readRule_text full) (readLayout s).2.length (readLayout s).2
  unfold readRules at h
  split at h
  · cases h
  · next r' rs rest' hmany =>
    cases h
    rw [hmany] at htext
    rw [RulesSpelling.text, List.append_assoc]
    dsimp only [RulesSpelling.rules] at htext ⊢
    rw [← htext]
    exact readLayout_text s

end Pegboard.Syntax
