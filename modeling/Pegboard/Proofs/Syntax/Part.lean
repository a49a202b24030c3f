import Pegboard.Proofs.Match.Derivation
import Pegboard.Proofs.Syntax.Token

/-!
# The expressions of the definition language

The grammar of the definition language has one expression for each construct and one for
each token.  `Part` names them, and `Part.form` says what they are made of, over any
numbering of them.  The core has the same parts but for lookahead and parentheses, so one
description does for both grammars.  A store speaks the language if it has all the parts
where a numbering says (`Speaks`).
-/

namespace Pegboard.Syntax

open Store

/-- The expressions of the definition language. -/
inductive Part where
  | rules
  /-- One rule at least. -/
  | ruleList
  | rule
  | equals
  | equalsSign
  | label
  | labelText
  | expression
  | ored
  /-- One branch at least. -/
  | orTerms
  | orTerm
  | slash
  | alternative
  | sequence
  /-- The terms after the first one. -/
  | moreTerms
  | term
  | notTerm
  | bang
  | lookaheadTerm
  | ampersand
  | quantified
  | quantifier
  | quantifierSign
  | atom
  | reference
  /-- No equals sign follows. -/
  | notEquals
  | literal
  | quoted
  | regex
  | tilde
  | flags
  | parenthesized
  | opening
  | closing
  | layout
  | blank
  | spaces
  | comment
  deriving DecidableEq

namespace Part

/-- The parts that the core leaves out. -/
def isExtra : Part → Bool
  | lookaheadTerm | ampersand | parenthesized | opening | closing => true
  | _ => false

/-- The name of a part, empty if it is no rule. -/
def name : Part → Text
  | rules => "rules".toText
  | rule => "rule".toText
  | equals => "equals".toText
  | label => "label".toText
  | expression => "expression".toText
  | ored => "ored".toText
  | orTerm => "or_term".toText
  | alternative => "alternative".toText
  | sequence => "sequence".toText
  | term => "term".toText
  | notTerm => "not_term".toText
  | lookaheadTerm => "lookahead_term".toText
  | quantified => "quantified".toText
  | quantifier => "quantifier".toText
  | atom => "atom".toText
  | reference => "reference".toText
  | literal => "literal".toText
  | quoted => "spaceless_literal".toText
  | regex => "regex".toText
  | parenthesized => "parenthesized".toText
  | layout => "_".toText
  | blank => "meaninglessness".toText
  | comment => "comment".toText
  | ruleList | equalsSign | labelText | orTerms | slash | moreTerms | bang | ampersand
  | quantifierSign | notEquals | tilde | flags | opening | closing | spaces => []

/-- What a part is made of, in the whole language or in the core. -/
def form (full : Bool) (ids : Part → ExprId) : Part → Form
  | rules => .compound .sequence [ids layout, ids ruleList] true
  | ruleList => .unary (.plus 1) (ids rule)
  | rule => .compound .sequence [ids label, ids equals, ids expression] true
  | equals => .compound .sequence [ids equalsSign, ids layout] true
  | equalsSign => .literal ['=']
  | label => .compound .sequence [ids labelText, ids layout] true
  | labelText => .regex labelPattern
  | expression => .compound .choice [ids ored, ids sequence, ids term] true
  | ored => .compound .sequence [ids alternative, ids orTerms] true
  | orTerms => .unary (.plus 1) (ids orTerm)
  | orTerm => .compound .sequence [ids slash, ids layout, ids alternative] true
  | slash => .literal ['/']
  | alternative => .compound .choice [ids sequence, ids term] true
  | sequence => .compound .sequence [ids term, ids moreTerms] true
  | moreTerms => .unary (.plus 1) (ids term)
  | term =>
    .compound .choice
      (if full then [ids notTerm, ids lookaheadTerm, ids quantified, ids atom]
        else [ids notTerm, ids quantified, ids atom]) true
  | notTerm => .compound .sequence [ids bang, ids term, ids layout] true
  | bang => .literal ['!']
  | lookaheadTerm => .compound .sequence [ids ampersand, ids term, ids layout] true
  | ampersand => .literal ['&']
  | quantified => .compound .sequence [ids atom, ids quantifier] true
  | quantifier => .compound .sequence [ids quantifierSign, ids layout] true
  | quantifierSign => .regex quantifierPattern
  | atom =>
    .compound .choice
      (if full then [ids reference, ids literal, ids regex, ids parenthesized]
        else [ids reference, ids literal, ids regex]) true
  | reference => .compound .sequence [ids label, ids notEquals] true
  | notEquals => .unary .negation (ids equals)
  | literal => .compound .sequence [ids quoted, ids layout] true
  | quoted => .regex quotedPattern
  | regex => .compound .sequence [ids tilde, ids quoted, ids flags, ids layout] true
  | tilde => .literal ['~']
  | flags => .regex flagsPattern
  | parenthesized =>
    .compound .sequence [ids opening, ids layout, ids expression, ids closing, ids layout] true
  | opening => .literal ['(']
  | closing => .literal [')']
  | layout => .unary .star (ids blank)
  | blank => .compound .choice [ids spaces, ids comment] true
  | spaces => .regex spacesPattern
  | comment => .regex commentPattern

/-- The kind of a part. -/
def kind : Part → Kind
  | rules | rule | equals | label | ored | orTerm | sequence | notTerm | lookaheadTerm | quantified
  | quantifier | reference | literal | regex | parenthesized => .sequence
  | expression | alternative | term | atom | blank => .choice
  | ruleList | orTerms | moreTerms => .plus
  | equalsSign | slash | bang | ampersand | tilde | opening | closing => .literal
  | labelText | quantifierSign | quoted | flags | spaces | comment => .regex
  | notEquals => .negation
  | layout => .star

theorem form_kind (full : Bool) (ids : Part → ExprId) (p : Part) : (p.form full ids).kind = p.kind := by
  cases p <;> rfl

/-- All parts. -/
def all : List Part :=
  [rules, ruleList, rule, equals, equalsSign, label, labelText, expression, ored, orTerms, orTerm,
   slash, alternative, sequence, moreTerms, term, notTerm, bang, lookaheadTerm, ampersand, quantified,
   quantifier, quantifierSign, atom, reference, notEquals, literal, quoted, regex, tilde, flags,
   parenthesized, opening, closing, layout, blank, spaces, comment]

theorem mem_all (p : Part) : p ∈ all := by
  cases p <;> decide

end Part

/-- The store has the parts of the language, or of its core, where the numbering says. -/
def Speaks (full : Bool) (store : Store) (ids : Part → ExprId) : Prop :=
  ∀ p : Part, (p.isExtra = true → full = true) → store[ids p]? = some ⟨p.name, p.form full ids⟩

instance (full : Bool) (store : Store) (ids : Part → ExprId) : Decidable (Speaks full store ids) :=
  decidable_of_iff (∀ p ∈ Part.all, (p.isExtra = true → full = true) →
      store[ids p]? = some ⟨p.name, p.form full ids⟩)
    ⟨fun h p => h p p.mem_all, fun h p _ => h p⟩

/-- The node of a part that starts at an offset and takes up so many characters. -/
def nodeAt (whole : Text) (ids : Part → ExprId) (p : Part) (n length : Nat) (children : List Node) :
    Node :=
  ⟨ids p, p.kind, p.name, whole, n, (n + length : Nat), children⟩

end Pegboard.Syntax
