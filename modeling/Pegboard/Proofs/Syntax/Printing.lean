import Pegboard.Proofs.Syntax.Meaning
import Pegboard.Proofs.Syntax.Reader
import Pegboard.Proofs.Syntax.Writing

/-!
# Spellings that are read back

A spelling is read back from its text if what stands after it does not run into it: no
letter goes on with its last label or its flags, its layout is all the layout there is, and
no quantifier, term or branch follows where it could take one.  `Follows` and `Free` say so.

`Prints` puts together what is wanted of a spelling that is written for a phrase: its text,
what it stands for, and that it is read back.  Each way to put spellings together has a
lemma that takes the parts to the whole.
-/

namespace Pegboard.Syntax

open Regex

/-! ## Tokens before a rest -/

/-- A run of characters is taken whole if the rest does not go on with it. -/
theorem takeWhile_run {p : Codepoint → Bool} {s rest : Text} (hs : ∀ c ∈ s, p c = true)
    (hrest : ∀ c, rest.head? = some c → p c = false) :
    (s ++ rest).takeWhile p = s ∧ (s ++ rest).dropWhile p = rest := by
  rw [List.takeWhile_append_of_pos hs, List.dropWhile_append_of_pos hs]
  cases rest with
  | nil => simp
  | cons c rest => simp [hrest c rfl]

theorem readLabel_append (label : Label) {rest : Text}
    (h : ∀ c, rest.head? = some c → labelRest.holds c = false) :
    readLabel (label.text ++ rest) = some (label, rest) := by
  obtain ⟨htake, hdrop⟩ := takeWhile_run label.rest_ok h
  rw [Label.text, List.cons_append, readLabel, dif_pos label.first_ok, hdrop]
  simp only [htake]

theorem readQuoted_append (quoted : Quoted) (rest : Text) :
    readQuoted (quoted.text ++ rest) = some (quoted, rest) := by
  have hscan := quoted.closed rest
  have htext : quoted.text ++ rest = .char '"' :: (quoted.body ++ .char '"' :: rest) := by
    rw [Quoted.text, List.cons_append, List.append_assoc, List.singleton_append]
  rw [htext, readQuoted, if_pos rfl]
  split
  · next h =>
    rw [hscan] at h
    cases h
  · next body rest' h =>
    rw [hscan] at h
    cases h
    rfl

theorem readFlags_append (flags : FlagText) {rest : Text}
    (h : ∀ c, rest.head? = some c → flagLetter.holds c = false) :
    readFlags (flags.text ++ rest) = (flags, rest) := by
  obtain ⟨htake, hdrop⟩ := takeWhile_run flags.ok h
  rw [readFlags, hdrop]
  simp only [htake]

theorem readQuantifier_symbol (q : Quantifier) (rest : Text) :
    readQuantifier (q.symbol :: rest) = some (q, rest) := by
  cases q <;> rfl

/-- A line break or a blank between two tokens. -/
def gap (c : Codepoint) (h : space.holds c = true) : Layout :=
  [.spaces c [] (List.forall_mem_singleton.2 h)]

theorem text_gap (c : Codepoint) (h : space.holds c = true) : Layout.text (gap c h) = [c] := rfl

theorem readLayout_gap {c : Codepoint} (hc : space.holds c = true) {rest : Text}
    (h : readBlank rest = none) : readLayout (c :: rest) = (gap c hc, rest) := by
  have hhead : ∀ d, rest.head? = some d → space.holds d = false := by
    intro d hd
    obtain ⟨rest', rfl⟩ := List.head?_eq_some_iff.1 hd
    rw [readBlank] at h
    split at h
    · cases h
    · next hspace => exact Bool.not_eq_true _ ▸ hspace
  obtain ⟨htake, hdrop⟩ := takeWhile_run (List.forall_mem_nil _) hhead
  rw [List.nil_append] at htake hdrop
  have hblank : readBlank (c :: rest) =
      some (.spaces c [] (List.forall_mem_singleton.2 hc), rest) := by
    rw [readBlank, dif_pos hc, hdrop]
    simp only [htake]
  have hmany : many readBlank rest.length rest = ([], rest) := readLayout_of_none h
  rw [readLayout, List.length_cons, many, hblank]
  dsimp only
  rw [hmany]
  rfl

/-! ## What may follow -/

/-- A text may follow layout that ends a token. -/
structure Follows (after : Layout) (rest : Text) : Prop where
  /-- The layout is all the layout there is. -/
  layout : readLayout (Layout.text after ++ rest) = (after, rest)
  /-- No letter goes on with a label or with flags. -/
  token : ∀ c, (Layout.text after ++ rest).head? = some c →
    labelRest.holds c = false ∧ flagLetter.holds c = false
  /-- No label before it is that of a rule. -/
  equals : rest.head? ≠ some (Codepoint.char '=')

/-- A text may follow a spelling of a rank: nothing in it could be taken by the spelling. -/
def Free : Rank → Text → Prop
  | .atom, _ => True
  | .term, rest => readQuantifier rest = none
  | .terms, rest => readQuantifier rest = none ∧ ∀ inner, readTerm true inner rest = none
  | .branches, rest | .expression, rest =>
    readQuantifier rest = none ∧ (∀ inner, readTerm true inner rest = none) ∧
      ∀ inner, readBranch true inner rest = none

/-- A term starts with a character. -/
def StartsTerm (c : Codepoint) : Prop :=
  labelStart.holds c = true ∨ c ∈ "\"~(!&".toText

theorem ne_of_labelStart {c d : Codepoint} (hc : labelStart.holds c = true)
    (hd : labelStart.holds d = false) : c ≠ d := by
  rintro rfl
  rw [hc] at hd
  cases hd

theorem lt_of_labelStart {c : Codepoint} (h : labelStart.holds c = true) : c.toNat < 128 := by
  simp only [CharSet.holds, labelStart, CharSet.spellings, List.any_cons, List.any_nil,
    CharSet.memberHolds, Bool.or_false, Bool.false_eq_true, if_false, beq_true, Bool.or_eq_true,
    Bool.and_eq_true, decide_eq_true_eq, List.contains_cons, List.contains_nil, beq_iff_eq] at h
  omega

/-- What starts a term is no blank, no equals sign and no quantifier. -/
theorem StartsTerm.distinct {c : Codepoint} (h : StartsTerm c) :
    space.holds c = false ∧ c ≠ '#' ∧ c ≠ '=' ∧ c ≠ '?' ∧ c ≠ '*' ∧ c ≠ '+' := by
  have hsmall : ∀ n < 128, labelStart.holds (Codepoint.ofNat n) = true →
      space.holds (Codepoint.ofNat n) = false ∧
      Codepoint.ofNat n ≠ '#' ∧ Codepoint.ofNat n ≠ '=' ∧ Codepoint.ofNat n ≠ '?' ∧
      Codepoint.ofNat n ≠ '*' ∧ Codepoint.ofNat n ≠ '+' := by
    decide +kernel
  rcases h with h | h
  · have hlabel := hsmall c.toNat (lt_of_labelStart h)
    rw [Codepoint.ofNat_toNat] at hlabel
    exact hlabel h
  · have hall : ∀ d ∈ "\"~(!&".toText, space.holds d = false ∧ d ≠ '#' ∧ d ≠ '=' ∧ d ≠ '?' ∧ d ≠ '*' ∧
        d ≠ '+' := by
      decide +kernel
    exact hall c h

theorem readBlank_sign {c : Codepoint} (hspace : space.holds c = false) (hhash : c ≠ '#')
    (s : Text) :
    readBlank (c :: s) = none := by
  rw [readBlank, dif_neg (by rw [hspace]; exact Bool.false_ne_true), if_neg hhash]

theorem StartsTerm.readBlank {c : Codepoint} (h : StartsTerm c) (s : Text) :
    readBlank (c :: s) = none :=
  readBlank_sign h.distinct.1 h.distinct.2.1 s

theorem StartsTerm.readQuantifier {c : Codepoint} (h : StartsTerm c) (s : Text) :
    readQuantifier (c :: s) = none := by
  obtain ⟨-, -, -, hoptional, hstar, hplus⟩ := h.distinct
  unfold Syntax.readQuantifier
  split
  · next heq => exact absurd (List.cons.inj heq).1 hoptional
  · next heq => exact absurd (List.cons.inj heq).1 hstar
  · next heq => exact absurd (List.cons.inj heq).1 hplus
  · rfl

/-- Atoms start like terms, but not with a mark. -/
theorem starts_atom (a : Spelling .atom) :
    ∃ c s, a.text = c :: s ∧ StartsTerm c ∧ c ≠ '!' ∧ c ≠ '&' := by
  match a with
  | .reference label after =>
    exact ⟨_, _, rfl, .inl label.first_ok, ne_of_labelStart label.first_ok rfl,
      ne_of_labelStart label.first_ok rfl⟩
  | .literal quoted after => exact ⟨_, _, rfl, .inr (by decide), by decide, by decide⟩
  | .regex quoted flags after => exact ⟨_, _, rfl, .inr (by decide), by decide, by decide⟩
  | .group before inner after => exact ⟨_, _, rfl, .inr (by decide), by decide, by decide⟩

theorem starts_term (t : Spelling .term) : ∃ c s, t.text = c :: s ∧ StartsTerm c := by
  match t with
  | .negation member => exact ⟨_, _, rfl, .inr (by decide)⟩
  | .lookahead member => exact ⟨_, _, rfl, .inr (by decide)⟩
  | .quantified member quantifier after =>
    obtain ⟨c, s, htext, hc, -⟩ := starts_atom member
    exact ⟨c, _, by rw [Spelling.text, htext]; rfl, hc⟩
  | .plain atom =>
    obtain ⟨c, s, htext, hc, -⟩ := starts_atom atom
    exact ⟨c, s, htext, hc⟩

theorem starts_terms (ts : Spelling .terms) : ∃ c s, ts.text = c :: s ∧ StartsTerm c := by
  match ts with
  | .last t => exact starts_term t
  | .more t rest =>
    obtain ⟨c, s, htext, hc⟩ := starts_term t
    exact ⟨c, _, by rw [Spelling.text, htext]; rfl, hc⟩

theorem starts_expression (e : Spelling .expression) : ∃ c s, e.text = c :: s ∧ StartsTerm c := by
  match e with
  | .single ts => exact starts_terms ts
  | .choice ts rest =>
    obtain ⟨c, s, htext, hc⟩ := starts_terms ts
    exact ⟨c, _, by rw [Spelling.text, htext]; rfl, hc⟩

/-- A term may follow a gap. -/
theorem follows_gap {c : Codepoint} (hc : space.holds c = true)
    (htoken : labelRest.holds c = false ∧ flagLetter.holds c = false) {rest : Text}
    (hblank : readBlank rest = none) (hequals : rest.head? ≠ some (Codepoint.char '=')) :
    Follows (gap c hc) rest where
  layout := readLayout_gap hc hblank
  token d hd := by
    obtain rfl : c = d := Option.some.inj hd
    exact htoken
  equals := hequals

/-- A blank between two tokens of a rule. -/
def blankGap : Layout := gap ' ' (by decide)

theorem follows_blankGap {rest : Text} (hblank : readBlank rest = none)
    (hequals : rest.head? ≠ some (Codepoint.char '=')) : Follows blankGap rest :=
  follows_gap _ (by decide +kernel) hblank hequals

theorem StartsTerm.follows {c : Codepoint} (h : StartsTerm c) (s : Text) :
    Follows blankGap (c :: s) := by
  refine follows_blankGap (h.readBlank s) ?_
  rw [List.head?_cons, ne_eq, Option.some.injEq]
  exact h.distinct.2.2.1

/-! ## Reading back -/

/-- Reads the branches of a choice. -/
def readBranches (full : Bool) (inner : Text → Option (Spelling .expression × Text)) (s : Text) :
    Option (Spelling .branches × Text) :=
  match many (readBranch full inner) s.length s with
  | ([], _) => none
  | (b :: bs, rest) => some (.ofBranches b bs, rest)

/-- The reader of a rank, with parentheses up to a depth. -/
def readAt : (r : Rank) → Nat → Text → Option (Spelling r × Text)
  | .atom, fuel => readAtom true (readExpression true fuel)
  | .term, fuel => readTerm true (readExpression true fuel)
  | .terms, fuel => readTerms true (readExpression true fuel)
  | .branches, fuel => readBranches true (readExpression true fuel)
  | .expression, fuel => readExpression true (fuel + 1)

/-- A spelling is written for a meaning: it shows a text with layout after it, it stands for
the meaning wherever it is, and it is read back from its text. -/
structure Prints [Platform] {r : Rank} (c : Spelling r) (m : Meaning r) (text : Text)
    (after : Layout) : Prop where
  /-- What is seen of it. -/
  text_eq : c.text = text ++ Layout.text after
  /-- What it stands for. -/
  phrase_eq : ∀ n, c.phrase n = .ok m
  /-- It is read back. -/
  reads : ∀ {fuel : Nat} {rest : Text}, c.text.length ≤ fuel + 1 → Follows after rest → Free r rest →
    readAt r fuel (c.text ++ rest) = some (c, rest)

section Atoms

variable {after : Layout}

theorem prints_reference [Platform] (label : Label) :
    Prints (.reference label after) (.reference label.text) label.text after where
  text_eq := rfl
  phrase_eq _ := rfl
  reads {fuel rest} _ hfollows _ := by
    have hread : readReference ((Spelling.reference label after).text ++ rest) =
        some (.reference label after, rest) := by
      rw [Spelling.text, List.append_assoc, readReference,
        readLabel_append label fun c hc => (hfollows.token c hc).1]
      dsimp only
      rw [hfollows.layout]
      exact if_neg hfollows.equals
    rw [readAt, readAtom, hread, Option.some_or]

/-- The quoted text of a body. -/
theorem exists_quoted {body : Text} (h : ClosedBody body) : ∃ quoted : Quoted, quoted.body = body :=
  ⟨⟨body, h⟩, rfl⟩

theorem readReference_sign {c : Codepoint} (hc : labelStart.holds c = false) (s : Text) :
    readReference (c :: s) = none := by
  rw [readReference, readLabel, dif_neg (by rw [hc]; exact Bool.false_ne_true)]

theorem prints_literal [Platform] {text : Text} (h : text.NoSurrogate) :
    ∃ c : Spelling .atom, Prints c (.literal text) (Literal.write text) after := by
  obtain ⟨quoted, hbody⟩ := exists_quoted (Literal.closedBody_written text)
  have hwrite : quoted.text = Literal.write text := by rw [Quoted.text, hbody, Literal.write]
  refine ⟨.literal quoted after, by rw [Spelling.text, hwrite], fun n => ?_, ?_⟩
  · rw [Spelling.phrase, Quoted.literalPhrase, hwrite, Literal.value?_write h]
  · intro fuel rest _ hfollows _
    have hnone : readReference ((Spelling.literal quoted after).text ++ rest) = none :=
      readReference_sign (by decide) _
    have hread : readLiteral ((Spelling.literal quoted after).text ++ rest) =
        some (.literal quoted after, rest) := by
      rw [Spelling.text, List.append_assoc, readLiteral, readQuoted_append]
      dsimp only
      rw [hfollows.layout]
    rw [readAt, readAtom, hnone, Option.none_or, hread, Option.some_or]

theorem prints_regex [Platform] {pattern : Pattern} (h : pattern.Accepted) :
    ∃ c : Spelling .atom, Prints c (.regex pattern)
      (Literal.writePattern pattern.source ++ pattern.flags.letters) after := by
  obtain ⟨quoted, hbody⟩ := exists_quoted (Literal.closedBody_escaped pattern.source)
  have hletters : ∀ c ∈ flagLetters, flagLetter.holds c = true :=
    List.all_eq_true.1 (by decide +kernel)
  have hflags : ∀ c ∈ pattern.flags.letters, flagLetter.holds c = true :=
    fun c hc => hletters c (pattern.flags.letters_subset c hc)
  have hwrite : .char '~' :: quoted.text = Literal.writePattern pattern.source := by
    rw [Quoted.text, hbody, Literal.writePattern]
  refine ⟨.regex quoted ⟨pattern.flags.letters, hflags⟩ after, ?_, fun n => ?_, ?_⟩
  · rw [Spelling.text, ← hwrite, List.cons_append, List.cons_append, List.append_assoc]
  · rw [Spelling.phrase, Quoted.regexPhrase, hbody, Literal.unescape_escape,
      Pattern.ofWritten_self h]
    rfl
  · intro fuel rest _ hfollows _
    generalize hspelling : Spelling.regex quoted ⟨pattern.flags.letters, hflags⟩ after = c
    have htext : c.text ++ rest =
        .char '~' :: (quoted.text ++ (pattern.flags.letters ++ (Layout.text after ++ rest))) := by
      rw [← hspelling, Spelling.text, List.cons_append, List.append_assoc, List.append_assoc]
    have hread : readRegex (c.text ++ rest) = some (c, rest) := by
      have hletters' := readFlags_append ⟨pattern.flags.letters, hflags⟩
        fun c hc => (hfollows.token c hc).2
      rw [htext, readRegex, readQuoted_append]
      dsimp only at hletters' ⊢
      rw [hletters']
      dsimp only
      rw [hfollows.layout, hspelling]
    have hnone : readReference (c.text ++ rest) = none := by
      rw [htext]
      exact readReference_sign (by decide) _
    have hnone' : readLiteral (c.text ++ rest) = none := by
      rw [htext]
      rfl
    rw [readAt, readAtom, hnone, Option.none_or, hnone', Option.none_or, hread, Option.some_or]

/-- A label that is no reference starts neither a term nor a branch. -/
theorem free_label (label : Label) {s : Text} (h : readReference (label.text ++ s) = none) :
    Free .expression (label.text ++ s) := by
  have hfirst : ∀ c, labelStart.holds c = false → label.first ≠ c :=
    fun c => ne_of_labelStart label.first_ok
  have hliteral : readLiteral (label.text ++ s) = none := by
    rw [Label.text, List.cons_append, readLiteral, readQuoted, if_neg (hfirst _ rfl)]
  have hregex : readRegex (label.text ++ s) = none := by
    rw [Label.text, List.cons_append]
    unfold readRegex
    split
    · next heq => exact absurd (List.cons.inj heq).1 (hfirst _ rfl)
    · rfl
  refine ⟨StartsTerm.readQuantifier (.inl label.first_ok) _, fun inner => ?_, fun inner => ?_⟩
  · have hgroup : readGroup inner (label.text ++ s) = none := by
      rw [Label.text, List.cons_append]
      unfold readGroup
      split
      · next heq => exact absurd (List.cons.inj heq).1 (hfirst _ rfl)
      · rfl
    have hatom : readAtom true inner (label.text ++ s) = none := by
      rw [readAtom, h, hliteral, hregex, if_pos rfl, hgroup]
      rfl
    rw [Label.text, List.cons_append] at hatom ⊢
    rw [readTerm, if_neg (hfirst _ rfl), if_neg (hfirst _ rfl), readQuantified, hatom]
  · rw [Label.text, List.cons_append]
    unfold readBranch
    split
    · next heq => exact absurd (List.cons.inj heq).1 (hfirst _ rfl)
    · rfl

/-- What closes a group may follow an expression. -/
theorem follows_closing (s : Text) : Follows [] (.char ')' :: s) where
  layout := readLayout_of_none (readBlank_sign (by decide) (by decide) s)
  token c hc := by
    obtain rfl : ')' = c := Option.some.inj hc
    decide
  equals := by simp

theorem free_nil : Free .expression [] := ⟨rfl, fun _ => rfl, fun _ => rfl⟩

theorem free_closing (s : Text) : Free .expression (.char ')' :: s) :=
  ⟨rfl, fun _ => rfl, fun _ => rfl⟩

theorem prints_group [Platform] {e : Spelling .expression} {p : Phrase} {text : Text}
    (h : Prints e p text []) :
    Prints (.group [] e after) p (.char '(' :: (text ++ [.char ')'])) after where
  text_eq := by
    rw [Spelling.text, h.text_eq]
    simp [Layout.text]
  phrase_eq n := h.phrase_eq _
  reads {fuel rest} hfuel hfollows _ := by
    have hsplit : (Spelling.group [] e after).text ++ rest =
        .char '(' :: (e.text ++ .char ')' :: (Layout.text after ++ rest)) := by
      simp [Spelling.text, Layout.text]
    have hlength : e.text.length + 2 ≤ fuel + 1 := by
      simp only [Spelling.text, List.length_cons, List.length_append] at hfuel
      omega
    obtain ⟨fuel, rfl⟩ : ∃ fuel', fuel = fuel' + 1 := ⟨fuel - 1, by omega⟩
    have hinner : readExpression true (fuel + 1) (e.text ++ .char ')' :: (Layout.text after ++ rest)) =
        some (e, .char ')' :: (Layout.text after ++ rest)) :=
      h.reads (by omega) (follows_closing _) (free_closing _)
    have hlayout : readLayout (e.text ++ .char ')' :: (Layout.text after ++ rest)) =
        ([], e.text ++ .char ')' :: (Layout.text after ++ rest)) := by
      obtain ⟨c, s, htext, hc⟩ := starts_expression e
      rw [htext]
      exact readLayout_of_none (hc.readBlank _)
    have hread : readGroup (readExpression true (fuel + 1))
        ((Spelling.group [] e after).text ++ rest) = some (.group [] e after, rest) := by
      rw [hsplit, readGroup, hlayout, hinner]
      simp only [hfollows.layout]
    have hnone : readReference ((Spelling.group [] e after).text ++ rest) = none :=
      readReference_sign (by decide) _
    rw [readAt, readAtom, hnone, Option.none_or, if_pos rfl, hread]
    rfl

end Atoms

/-! ## Terms -/

section Terms

variable {after : Layout} {p : Phrase} {text : Text}

theorem readTerm_atom (inner : Text → Option (Spelling .expression × Text)) (a : Spelling .atom)
    (s : Text) : readTerm true inner (a.text ++ s) = readQuantified true inner (a.text ++ s) := by
  obtain ⟨c, s', htext, -, hbang, hampersand⟩ := starts_atom a
  rw [htext, List.cons_append, readTerm, if_neg hbang, if_neg hampersand]

theorem prints_plain [Platform] {a : Spelling .atom} (h : Prints a p text after) :
    Prints (.plain a) p text after where
  text_eq := h.text_eq
  phrase_eq n := h.phrase_eq n
  reads {fuel rest} hfuel hfollows hfree := by
    have hatom : readAtom true (readExpression true fuel) (a.text ++ rest) = some (a, rest) :=
      h.reads hfuel hfollows trivial
    have hquantifier : readQuantifier rest = none := hfree
    rw [readAt, Spelling.text, readTerm_atom, readQuantified, hatom]
    dsimp only
    rw [hquantifier]

theorem prints_negation [Platform] {t : Spelling .term} (h : Prints t p text after) :
    Prints (.negation t) (.unary .negation p) (.char '!' :: text) after where
  text_eq := by rw [Spelling.text, h.text_eq, List.cons_append]
  phrase_eq n := by rw [Spelling.phrase, h.phrase_eq]; rfl
  reads {fuel rest} hfuel hfollows hfree := by
    have hterm : readTerm true (readExpression true fuel) (t.text ++ rest) = some (t, rest) :=
      h.reads (Nat.le_of_succ_le hfuel) hfollows hfree
    rw [readAt, Spelling.text, List.cons_append, readTerm, if_pos rfl, hterm]
    rfl

theorem prints_lookahead [Platform] {t : Spelling .term} (h : Prints t p text after) :
    Prints (.lookahead t) (.unary .lookahead p) (.char '&' :: text) after where
  text_eq := by rw [Spelling.text, h.text_eq, List.cons_append]
  phrase_eq n := by rw [Spelling.phrase, h.phrase_eq]; rfl
  reads {fuel rest} hfuel hfollows hfree := by
    have hterm : readTerm true (readExpression true fuel) (t.text ++ rest) = some (t, rest) :=
      h.reads (Nat.le_of_succ_le hfuel) hfollows hfree
    rw [readAt, Spelling.text, List.cons_append, readTerm, if_neg (by decide), if_pos rfl, if_pos rfl,
      hterm]
    rfl

/-- A quantifier may follow an atom. -/
theorem follows_symbol (q : Quantifier) (s : Text) : Follows [] (q.symbol :: s) where
  layout := readLayout_of_none
    (readBlank_sign (by cases q <;> decide) (by cases q <;> decide) s)
  token c hc := by
    obtain rfl : q.symbol = c := Option.some.inj hc
    cases q <;> decide
  equals := by cases q <;> simp [Quantifier.symbol]

theorem prints_quantified [Platform] {a : Spelling .atom} (h : Prints a p text [])
    (q : Quantifier) :
    Prints (.quantified a q after) (.unary q.wrap p) (text ++ [q.symbol]) after where
  text_eq := by
    rw [Spelling.text, h.text_eq]
    simp [Layout.text]
  phrase_eq n := by rw [Spelling.phrase, h.phrase_eq]; rfl
  reads {fuel rest} hfuel hfollows _ := by
    have hsplit : (Spelling.quantified a q after).text ++ rest =
        a.text ++ q.symbol :: (Layout.text after ++ rest) := by
      simp [Spelling.text]
    have hlength : a.text.length ≤ fuel + 1 := by
      simp only [Spelling.text, List.length_append] at hfuel
      omega
    have hatom : readAtom true (readExpression true fuel)
        (a.text ++ q.symbol :: (Layout.text after ++ rest)) = some (a, _) :=
      h.reads hlength (follows_symbol q _) trivial
    rw [readAt, hsplit, readTerm_atom, readQuantified, hatom]
    dsimp only
    rw [readQuantifier_symbol]
    dsimp only
    rw [hfollows.layout]

end Terms

/-! ## Lists -/

section Lists

variable {α : Type} {step : Text → Option (α × Text)} {text : α → Text}
  (htext : ∀ {s a rest}, step s = some (a, rest) → s = text a ++ rest) (hne : ∀ a, text a ≠ [])
include htext hne

/-- A number of rounds that is enough is as good as another. -/
theorem many_enough : ∀ {fuel fuel' : Nat} {s : Text}, s.length ≤ fuel → s.length ≤ fuel' →
    many step fuel s = many step fuel' s := by
  have hnil : ∀ fuel, many step fuel [] = ([], []) := by
    have hstep : step [] = none := by
      rcases hread : step [] with _ | ⟨a, rest⟩
      · rfl
      · exact absurd (List.append_eq_nil_iff.1 (htext hread).symm).1 (hne a)
    exact many_none hstep
  intro fuel
  induction fuel with
  | zero =>
    intro fuel' s h _
    rw [List.length_eq_zero_iff.1 (Nat.le_zero.1 h), hnil, hnil]
  | succ fuel ih =>
    intro fuel' s h h'
    cases fuel' with
    | zero => rw [List.length_eq_zero_iff.1 (Nat.le_zero.1 h'), hnil, hnil]
    | succ fuel' =>
      rw [many, many]
      rcases hread : step s with _ | ⟨a, rest⟩
      · rfl
      · have hlength := congrArg List.length (htext hread)
        have hpos := List.length_pos_iff.2 (hne a)
        rw [List.length_append] at hlength
        dsimp only
        rw [ih (show rest.length ≤ fuel by omega) (show rest.length ≤ fuel' by omega)]

/-- Reading over and over starts with the first thing that is read. -/
theorem many_cons {s rest : Text} {a : α} (h : step s = some (a, rest)) :
    many step s.length s = (a :: (many step rest.length rest).1, (many step rest.length rest).2) := by
  have hlength := congrArg List.length (htext h)
  have hpos := List.length_pos_iff.2 (hne a)
  rw [List.length_append] at hlength
  obtain ⟨fuel, hfuel⟩ : ∃ fuel, s.length = fuel + 1 := ⟨s.length - 1, by omega⟩
  rw [hfuel, many, h]
  dsimp only
  rw [many_enough htext hne (show rest.length ≤ fuel by omega) (Nat.le_refl _)]

end Lists

section Terms

variable {fuel : Nat} {s s' rest : Text} {t : Spelling .term}

theorem readTerms_last (h : readTerm true (readExpression true fuel) s = some (t, rest))
    (hrest : readTerm true (readExpression true fuel) rest = none) :
    readTerms true (readExpression true fuel) s = some (.last t, rest) := by
  have hmany := many_cons (readTerm_text readExpression_text) Spelling.text_ne_nil h
  rw [many_none hrest] at hmany
  rw [readTerms, hmany]
  rfl

theorem readTerms_more {ts : Spelling .terms}
    (h : readTerm true (readExpression true fuel) s = some (t, s'))
    (hrest : readTerms true (readExpression true fuel) s' = some (ts, rest)) :
    readTerms true (readExpression true fuel) s = some (.more t ts, rest) := by
  have hmany := many_cons (readTerm_text readExpression_text) Spelling.text_ne_nil h
  unfold readTerms at hrest
  split at hrest
  · cases hrest
  · next hsome =>
    cases hrest
    rw [hsome] at hmany
    rw [readTerms, hmany]
    rfl

theorem readBranches_last {b : Layout × Spelling .terms}
    (h : readBranch true (readExpression true fuel) s = some (b, rest))
    (hrest : readBranch true (readExpression true fuel) rest = none) :
    readBranches true (readExpression true fuel) s = some (.lastBranch b.1 b.2, rest) := by
  have hmany := many_cons (readBranch_text readExpression_text) (fun b => List.cons_ne_nil _ _) h
  rw [many_none hrest] at hmany
  rw [readBranches, hmany]
  rfl

theorem readBranches_more {b : Layout × Spelling .terms} {bs : Spelling .branches}
    (h : readBranch true (readExpression true fuel) s = some (b, s'))
    (hrest : readBranches true (readExpression true fuel) s' = some (bs, rest)) :
    readBranches true (readExpression true fuel) s = some (.moreBranches b.1 b.2 bs, rest) := by
  have hmany := many_cons (readBranch_text readExpression_text) (fun b => List.cons_ne_nil _ _) h
  unfold readBranches at hrest
  split at hrest
  · cases hrest
  · next hsome =>
    cases hrest
    rw [hsome] at hmany
    rw [readBranches, hmany]
    rfl

end Terms

/-! ## Expressions -/

section Expressions

variable {after : Layout} {text text' : Text}

theorem prints_last [Platform] {t : Spelling .term} {p : Phrase} (h : Prints t p text after) :
    Prints (.last t) [p] text after where
  text_eq := h.text_eq
  phrase_eq n := by rw [Spelling.phrase, h.phrase_eq]; rfl
  reads hfuel hfollows hfree := readTerms_last (h.reads hfuel hfollows hfree.1) (hfree.2 _)

theorem prints_more [Platform] {t : Spelling .term} {p : Phrase} {ts : Spelling .terms}
    {ps : List Phrase} (h : Prints t p text blankGap) (hmore : Prints ts ps text' after) :
    Prints (.more t ts) (p :: ps) (text ++ .char ' ' :: text') after where
  text_eq := by
    rw [Spelling.text, h.text_eq, hmore.text_eq, blankGap, text_gap]
    simp
  phrase_eq n := by rw [Spelling.phrase, h.phrase_eq, hmore.phrase_eq]; rfl
  reads {fuel rest} hfuel hfollows hfree := by
    rw [Spelling.text, List.length_append] at hfuel
    rw [Spelling.text, List.append_assoc]
    obtain ⟨c, s, htext, hc⟩ := starts_terms ts
    have hnext : Follows blankGap (ts.text ++ rest) ∧ Free .term (ts.text ++ rest) := by
      rw [htext]
      exact ⟨hc.follows _, hc.readQuantifier _⟩
    exact readTerms_more (h.reads (by omega) hnext.1 hnext.2) (hmore.reads (by omega) hfollows hfree)

theorem readChoice_eq (inner : Text → Option (Spelling .expression × Text)) (s : Text) :
    readChoice true inner s = (readTerms true inner s).bind fun (ts, s') =>
      some (((readBranches true inner s').map fun (bs, rest) => (.choice ts bs, rest)).getD
        (.single ts, s')) := by
  rw [readChoice]
  rcases readTerms true inner s with _ | ⟨ts, s'⟩
  · rfl
  · dsimp only [Option.bind_some]
    rw [readBranches]
    rcases many (readBranch true inner) s'.length s' with ⟨_ | ⟨b, bs⟩, rest⟩ <;> rfl

theorem prints_single [Platform] {ts : Spelling .terms} {ps : List Phrase}
    (h : Prints ts ps text after) :
    Prints (.single ts) (sequenceOf ps) text after where
  text_eq := h.text_eq
  phrase_eq n := by rw [Spelling.phrase, h.phrase_eq]; rfl
  reads {fuel rest} hfuel hfollows hfree := by
    have hterms : readTerms true (readExpression true fuel) (ts.text ++ rest) = some (ts, rest) :=
      h.reads hfuel hfollows ⟨hfree.1, hfree.2.1⟩
    have hbranches : readBranches true (readExpression true fuel) rest = none := by
      rw [readBranches, many_none (hfree.2.2 _)]
    rw [readAt, readExpression, readChoice_eq, Spelling.text, hterms, Option.bind_some]
    dsimp only
    rw [hbranches]
    rfl

/-- A slash may follow the terms of an alternative. -/
theorem follows_slash (s : Text) : Follows blankGap (.char '/' :: s) :=
  follows_blankGap (readBlank_sign (by decide +kernel) (by decide) s) (by simp)

theorem free_slash (s : Text) : Free .terms (.char '/' :: s) := ⟨rfl, fun _ => rfl⟩

theorem starts_branches (bs : Spelling .branches) : ∃ s, bs.text = .char '/' :: s := by
  cases bs <;> exact ⟨_, rfl⟩

theorem readBranch_slash [Platform] {ts : Spelling .terms} {ps : List Phrase} {fuel : Nat}
    {rest : Text} (h : Prints ts ps text after) (hfuel : ts.text.length ≤ fuel + 1)
    (hfollows : Follows after rest) (hfree : Free .terms rest) :
    readBranch true (readExpression true fuel) (.char '/' :: .char ' ' :: (ts.text ++ rest)) =
      some ((blankGap, ts), rest) := by
  have hterms : readTerms true (readExpression true fuel) (ts.text ++ rest) = some (ts, rest) :=
    h.reads hfuel hfollows hfree
  have hlayout : readLayout (.char ' ' :: (ts.text ++ rest)) = (blankGap, ts.text ++ rest) := by
    obtain ⟨c, s, htext, hc⟩ := starts_terms ts
    rw [htext]
    exact readLayout_gap _ (hc.readBlank _)
  rw [readBranch, hlayout, hterms]
  rfl

theorem prints_lastBranch [Platform] {ts : Spelling .terms} {ps : List Phrase}
    (h : Prints ts ps text after) :
    Prints (.lastBranch blankGap ts) [sequenceOf ps] (.char '/' :: .char ' ' :: text) after where
  text_eq := by
    rw [Spelling.text, h.text_eq, blankGap, text_gap]
    rfl
  phrase_eq n := by rw [Spelling.phrase, h.phrase_eq]; rfl
  reads {fuel rest} hfuel hfollows hfree := by
    simp only [Spelling.text, List.length_cons, List.length_append] at hfuel
    exact readBranches_last (readBranch_slash h (by omega) hfollows ⟨hfree.1, hfree.2.1⟩)
      (hfree.2.2 _)

theorem prints_moreBranches [Platform] {ts : Spelling .terms} {ps : List Phrase}
    {bs : Spelling .branches} {qs : List Phrase} (h : Prints ts ps text blankGap)
    (hmore : Prints bs qs text' after) :
    Prints (.moreBranches blankGap ts bs) (sequenceOf ps :: qs)
      (.char '/' :: .char ' ' :: (text ++ .char ' ' :: text'))
      after where
  text_eq := by
    rw [Spelling.text, h.text_eq, hmore.text_eq, blankGap, text_gap]
    simp
  phrase_eq n := by rw [Spelling.phrase, h.phrase_eq, hmore.phrase_eq]; rfl
  reads {fuel rest} hfuel hfollows hfree := by
    simp only [Spelling.text, List.length_cons, List.length_append] at hfuel
    have hsplit : (Spelling.moreBranches blankGap ts bs).text ++ rest =
        .char '/' :: .char ' ' :: (ts.text ++ (bs.text ++ rest)) := by
      simp [Spelling.text, blankGap, text_gap]
    obtain ⟨s, hs⟩ := starts_branches bs
    have hnext : Follows blankGap (bs.text ++ rest) ∧ Free .terms (bs.text ++ rest) := by
      rw [hs]
      exact ⟨follows_slash _, free_slash _⟩
    rw [hsplit]
    exact readBranches_more (readBranch_slash h (by omega) hnext.1 hnext.2)
      (hmore.reads (by omega) hfollows hfree)

theorem prints_choice [Platform] {ts : Spelling .terms} {ps : List Phrase} {bs : Spelling .branches}
    {qs : List Phrase} (h : Prints ts ps text blankGap) (hmore : Prints bs qs text' after) :
    Prints (.choice ts bs) (.compound .choice (sequenceOf ps :: qs))
      (text ++ .char ' ' :: text') after where
  text_eq := by
    rw [Spelling.text, h.text_eq, hmore.text_eq, blankGap, text_gap]
    simp
  phrase_eq n := by rw [Spelling.phrase, h.phrase_eq, hmore.phrase_eq]; rfl
  reads {fuel rest} hfuel hfollows hfree := by
    rw [Spelling.text, List.length_append] at hfuel
    obtain ⟨s, hs⟩ := starts_branches bs
    have hnext : Follows blankGap (bs.text ++ rest) ∧ Free .terms (bs.text ++ rest) := by
      rw [hs]
      exact ⟨follows_slash _, free_slash _⟩
    have hterms : readTerms true (readExpression true fuel) (ts.text ++ (bs.text ++ rest)) =
        some (ts, bs.text ++ rest) := h.reads (by omega) hnext.1 hnext.2
    have hbranches : readBranches true (readExpression true fuel) (bs.text ++ rest) = some (bs, rest) :=
      hmore.reads (by omega) hfollows hfree
    rw [readAt, readExpression, readChoice_eq, Spelling.text, List.append_assoc, hterms,
      Option.bind_some]
    dsimp only
    rw [hbranches]
    rfl

end Expressions

end Pegboard.Syntax
