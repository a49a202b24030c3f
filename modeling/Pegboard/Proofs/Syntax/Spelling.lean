import Pegboard.Expr.Basic
import Pegboard.Proofs.Syntax.Token

/-!
# Spellings

A spelling is a definition text, or a part of one, with its structure and with everything
that the text shows: which blanks and comments stand where, how a literal is written, where
there are parentheses.  `Spelling.text` forgets the structure.

Spellings are ranked as the definition language is: an atom, a term, the terms of an
alternative, the alternatives after the first one, and a whole expression.  A spelling of a
rank cannot hold what does not belong there, so precedence is part of the type.  Blanks and
comments stand at the end of the part they follow.
-/

namespace Pegboard.Syntax

open Regex

/-! ## Tokens -/

/-- A label as it is written. -/
structure Label where
  /-- Its first character. -/
  first : Codepoint
  /-- The others. -/
  rest : Text
  /-- The first one may start a label. -/
  first_ok : labelStart.holds first = true
  /-- The others may go on with it. -/
  rest_ok : ∀ c ∈ rest, labelRest.holds c = true

def Label.text (l : Label) : Text := l.first :: l.rest

/-- A quoted text as it is written, less its quotes. -/
structure Quoted where
  /-- What stands between the quotes. -/
  body : Text
  /-- The quote after it is the first one that closes it. -/
  closed : ∀ rest, scanBody (body ++ .char '"' :: rest) = some (body, rest)

def Quoted.text (q : Quoted) : Text := .char '"' :: (q.body ++ [.char '"'])

/-- Flags as they are written. -/
structure FlagText where
  /-- The letters. -/
  text : Text
  /-- They are letters of flags. -/
  ok : ∀ c ∈ text, flagLetter.holds c = true

/-- A run of white space, or a comment. -/
inductive Blank where
  | spaces (first : Codepoint) (rest : Text) (ok : ∀ c ∈ first :: rest, space.holds c = true)
  | comment (rest : Text) (ok : ∀ c ∈ rest, unbroken.holds c = true)

def Blank.text : Blank → Text
  | spaces first rest _ => first :: rest
  | comment rest _ => '#' :: rest

/-- Blanks and comments, one after the other. -/
abbrev Layout := List Blank

def Layout.text (layout : Layout) : Text := layout.flatMap Blank.text

/-- A quantifier. -/
inductive Quantifier where
  | optional
  | star
  | plus

namespace Quantifier

def symbol : Quantifier → Codepoint
  | optional => '?'
  | star => '*'
  | plus => '+'

/-- What a quantifier does with its member. -/
def wrap : Quantifier → Wrap
  | optional => .optional
  | star => .star
  | plus => .plus 1

end Quantifier

/-! ## Expressions -/

/-- The ranks of spellings. -/
inductive Rank where
  | atom
  | term
  /-- The terms of an alternative. -/
  | terms
  /-- The alternatives after the first one, each with its slash. -/
  | branches
  | expression

/-- A part of a definition text. -/
inductive Spelling : Rank → Type where
  | reference (label : Label) (after : Layout) : Spelling .atom
  | literal (quoted : Quoted) (after : Layout) : Spelling .atom
  | regex (quoted : Quoted) (flags : FlagText) (after : Layout) : Spelling .atom
  | group (before : Layout) (inner : Spelling .expression) (after : Layout) : Spelling .atom
  | negation (member : Spelling .term) : Spelling .term
  | lookahead (member : Spelling .term) : Spelling .term
  | quantified (member : Spelling .atom) (quantifier : Quantifier) (after : Layout) : Spelling .term
  | plain (atom : Spelling .atom) : Spelling .term
  | last (term : Spelling .term) : Spelling .terms
  | more (term : Spelling .term) (rest : Spelling .terms) : Spelling .terms
  | lastBranch (before : Layout) (terms : Spelling .terms) : Spelling .branches
  | moreBranches (before : Layout) (terms : Spelling .terms) (rest : Spelling .branches) :
    Spelling .branches
  | single (terms : Spelling .terms) : Spelling .expression
  | choice (first : Spelling .terms) (rest : Spelling .branches) : Spelling .expression

namespace Spelling

/-- What a spelling reads as in the text. -/
def text : {r : Rank} → Spelling r → Text
  | _, reference label after => label.text ++ Layout.text after
  | _, literal quoted after => quoted.text ++ Layout.text after
  | _, regex quoted flags after => .char '~' :: (quoted.text ++ (flags.text ++ Layout.text after))
  | _, group before inner after =>
    .char '(' :: (Layout.text before ++ (inner.text ++ .char ')' :: Layout.text after))
  | _, negation member => '!' :: member.text
  | _, lookahead member => '&' :: member.text
  | _, quantified member quantifier after =>
    member.text ++ quantifier.symbol :: Layout.text after
  | _, plain atom => atom.text
  | _, last term => term.text
  | _, more term rest => term.text ++ rest.text
  | _, lastBranch before terms => .char '/' :: (Layout.text before ++ terms.text)
  | _, moreBranches before terms rest => .char '/' :: (Layout.text before ++ (terms.text ++ rest.text))
  | _, single terms => terms.text
  | _, choice first rest => first.text ++ rest.text

/-- There is something to see of every spelling. -/
theorem text_ne_nil : {r : Rank} → (c : Spelling r) → c.text ≠ []
  | _, reference _ _ => List.cons_ne_nil _ _
  | _, literal _ _ => List.cons_ne_nil _ _
  | _, regex _ _ _ => List.cons_ne_nil _ _
  | _, group _ _ _ => List.cons_ne_nil _ _
  | _, negation _ => List.cons_ne_nil _ _
  | _, lookahead _ => List.cons_ne_nil _ _
  | _, quantified member _ _ => List.append_ne_nil_of_left_ne_nil (text_ne_nil member) _
  | _, plain atom => text_ne_nil atom
  | _, last term => text_ne_nil term
  | _, more term _ => List.append_ne_nil_of_left_ne_nil (text_ne_nil term) _
  | _, lastBranch _ _ => List.cons_ne_nil _ _
  | _, moreBranches _ _ _ => List.cons_ne_nil _ _
  | _, single terms => text_ne_nil terms
  | _, choice first _ => List.append_ne_nil_of_left_ne_nil (text_ne_nil first) _

/-- The terms of a list that is not empty. -/
def ofTerms : Spelling .term → List (Spelling .term) → Spelling .terms
  | t, [] => last t
  | t, t' :: rest => more t (ofTerms t' rest)

/-- The branches of a list that is not empty. -/
def ofBranches : Layout × Spelling .terms → List (Layout × Spelling .terms) → Spelling .branches
  | (before, terms), [] => lastBranch before terms
  | (before, terms), b :: rest => moreBranches before terms (ofBranches b rest)

/-- A branch with its slash. -/
def branchText (b : Layout × Spelling .terms) : Text := .char '/' :: (Layout.text b.1 ++ b.2.text)

theorem text_ofTerms : ∀ (t : Spelling .term) (ts : List (Spelling .term)),
    (ofTerms t ts).text = (t :: ts).flatMap text
  | t, [] => by simp [ofTerms, text]
  | t, t' :: rest => by
    simp [ofTerms, text, text_ofTerms t' rest]

theorem text_ofBranches : ∀ (b : Layout × Spelling .terms) (bs : List (Layout × Spelling .terms)),
    (ofBranches b bs).text = (b :: bs).flatMap branchText
  | (before, terms), [] => by simp [ofBranches, text, branchText]
  | (before, terms), b :: rest => by
    simp [ofBranches, text, text_ofBranches b rest, branchText]

end Spelling

/-! ## Rules -/

/-- A rule as it is written. -/
structure RuleSpelling where
  /-- Its label. -/
  label : Label
  /-- What stands between the label and the equals sign. -/
  afterLabel : Layout
  /-- What stands after the equals sign. -/
  afterEquals : Layout
  /-- Its right-hand side. -/
  body : Spelling .expression

def RuleSpelling.text (r : RuleSpelling) : Text :=
  r.label.text ++ (Layout.text r.afterLabel ++ .char '=' :: (Layout.text r.afterEquals ++ r.body.text))

theorem RuleSpelling.text_ne_nil (r : RuleSpelling) : r.text ≠ [] := List.cons_ne_nil _ _

/-- A definition text as it is written. -/
structure RulesSpelling where
  /-- What stands before the first rule. -/
  before : Layout
  /-- The first rule. -/
  first : RuleSpelling
  /-- The others. -/
  rest : List RuleSpelling

def RulesSpelling.rules (r : RulesSpelling) : List RuleSpelling := r.first :: r.rest

def RulesSpelling.text (r : RulesSpelling) : Text :=
  Layout.text r.before ++ r.rules.flatMap RuleSpelling.text

end Pegboard.Syntax
