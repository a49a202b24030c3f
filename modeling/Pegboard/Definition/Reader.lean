import Pegboard.Definition.Literal
import Pegboard.Definition.Phrase
import Pegboard.Node.Basic

/-!
# From a tree to definitions

A definition text is matched with the rule grammar of the definition language, and
the tree of that match is read as definitions.  Each construct of the language has
a rule of the same name, listed in `Construct`.  Reading a construct wants a node
of its rule; a node of another rule, or a child that is not there, shows that the
grammar and the reader disagree.

Reading is structural in the tree.  Errors come in the order of the text: the first
literal or pattern that is wrong is reported, or the first label that comes twice.
-/

namespace Pegboard

/-- The constructs of the definition language that stand for a phrase. -/
inductive Construct where
  | expression
  | ored
  | orTerm
  | alternative
  | sequence
  | term
  | notTerm
  | lookaheadTerm
  | quantified
  | atom
  | parenthesized
  | reference
  | literal
  | regex
  deriving DecidableEq, Repr

namespace Construct

/-- The rule of a construct. -/
def label : Construct → Text
  | expression => "expression".toText
  | ored => "ored".toText
  | orTerm => "or_term".toText
  | alternative => "alternative".toText
  | sequence => "sequence".toText
  | term => "term".toText
  | notTerm => "not_term".toText
  | lookaheadTerm => "lookahead_term".toText
  | quantified => "quantified".toText
  | atom => "atom".toText
  | parenthesized => "parenthesized".toText
  | reference => "reference".toText
  | literal => "literal".toText
  | regex => "regex".toText

/-- What a construct with alternatives may be. -/
def options : Construct → List Construct
  | expression => [ored, sequence, term]
  | alternative => [sequence, term]
  | term => [notTerm, lookaheadTerm, quantified, atom]
  | atom => [reference, literal, regex, parenthesized]
  | _ => []

/-- The option of a construct with a given rule. -/
def option? (c : Construct) (name : Text) : Option Construct :=
  c.options.find? fun o => o.label == name

end Construct

namespace Node

/-- Fails unless the node is of the wanted rule. -/
def expectRule (wanted : Text) (n : Node) : Except Error Unit :=
  if n.name = wanted then .ok () else .error (.wrongNode wanted n.name n.kind.label n.start)

/-- The text of a child. -/
def childText (children : List Node) (index : Nat) : Except Error Text :=
  match children[index]? with
  | some child => .ok child.text
  | none => .error .missingChild

/-- Reads a label. -/
def toLabel (n : Node) : Except Error Text := do
  n.expectRule "label".toText
  childText n.children 0

/-- Reads a quantifier. -/
def toQuantifier (n : Node) : Except Error Text := do
  n.expectRule "quantifier".toText
  childText n.children 0

/-- What a quantifier does with its member. -/
def wrapOf (symbol : Text) : Except Error Wrap :=
  if symbol = [.char '?'] then .ok .optional
  else if symbol = [.char '*'] then .ok .star
  else if symbol = [.char '+'] then .ok (.plus 1)
  else .error (.unknownQuantifier symbol)

variable [Platform]

/-- Reads the children of a literal that begins at an offset. -/
def literalPhrase (children : List Node) (start : Int) : Except Error Phrase := do
  let written ← childText children 0
  match Literal.value? written with
  | some text => return .literal text
  | none => .error (.badLiteral written start)

/-- Reads the children of a pattern. -/
def regexPhrase (children : List Node) : Except Error Phrase := do
  let written ← childText children 1
  let flags ← childText children 2
  return .regex (← Regex.Pattern.ofWritten (Literal.unescape (Literal.inside written)) flags)

mutual

/-- Reads a node as a construct. -/
def toPhrase (c : Construct) : Node → Except Error Phrase
  | ⟨_, kind, name, _, start, _, children⟩ =>
    if name ≠ c.label then .error (.wrongNode c.label name kind.label start)
    else
      match c with
      | .expression | .alternative | .term | .atom =>
        match children with
        | [] => .error .missingChild
        | child :: _ =>
          match c.option? child.name with
          | none => .error (.strayNode child.name name child.start)
          | some o => child.toPhrase o
      | .ored =>
        match children with
        | [] => .error .missingChild
        | child :: rest => do
          let first ← child.toPhrase .alternative
          match rest with
          | [] => .error .missingChild
          | ⟨_, _, _, _, _, _, others⟩ :: _ =>
            return .compound .choice (first :: (← toPhrases .orTerm others))
      | .orTerm =>
        match children with
        | _ :: _ :: child :: _ => child.toPhrase .alternative
        | _ => .error .missingChild
      | .sequence =>
        match children with
        | [] => .error .missingChild
        | child :: rest => do
          let first ← child.toPhrase .term
          match rest with
          | [] => .error .missingChild
          | ⟨_, _, _, _, _, _, others⟩ :: _ =>
            return .compound .sequence (first :: (← toPhrases .term others))
      | .notTerm =>
        match children with
        | _ :: child :: _ => do return .unary .negation (← child.toPhrase .term)
        | _ => .error .missingChild
      | .lookaheadTerm =>
        match children with
        | _ :: child :: _ => do return .unary .lookahead (← child.toPhrase .term)
        | _ => .error .missingChild
      | .quantified =>
        match children with
        | [] => .error .missingChild
        | child :: rest => do
          let member ← child.toPhrase .atom
          match rest with
          | [] => .error .missingChild
          | quantifier :: _ => return .unary (← wrapOf (← quantifier.toQuantifier)) member
      | .parenthesized =>
        match children with
        | _ :: _ :: child :: _ => child.toPhrase .expression
        | _ => .error .missingChild
      | .reference =>
        match children with
        | [] => .error .missingChild
        | child :: _ => do return .reference (← child.toLabel)
      | .literal => literalPhrase children start
      | .regex => regexPhrase children

/-- Reads nodes as constructs of one kind. -/
def toPhrases (c : Construct) : List Node → Except Error (List Phrase)
  | [] => .ok []
  | n :: rest => do
    let first ← n.toPhrase c
    return first :: (← toPhrases c rest)

end

/-- Reads a rule. -/
def toDefinition (n : Node) : Except Error Definition := do
  n.expectRule "rule".toText
  match n.children with
  | [] => .error .missingChild
  | label :: rest =>
    let label ← label.toLabel
    match rest with
    | _ :: body :: _ => return ⟨label, ← body.toPhrase .expression⟩
    | _ => .error .missingChild

/-- Reads rules, given the labels of the ones before.  A label may come once. -/
def toDefinitionsAfter (labels : List Text) : List Node → Except Error (List Definition)
  | [] => .ok []
  | n :: rest => do
    let d ← n.toDefinition
    if labels.contains d.label then .error (.duplicateRule d.label)
    else return d :: (← toDefinitionsAfter (d.label :: labels) rest)

/-- Reads a whole definition text. -/
def toDefinitions (n : Node) : Except Error (List Definition) := do
  n.expectRule "rules".toText
  match n.children with
  | _ :: rules :: _ => toDefinitionsAfter [] rules.children
  | _ => .error .missingChild

end Node

end Pegboard
