import Pegboard.Platform

/-!
# Expressions

A grammar is a graph of expressions.  Rules refer to each other, so the graph has
cycles and shared parts.  It is kept as a store of numbered cells, one for each
expression, and an expression refers to its members by their numbers.

An expression has a name, which is empty unless it is a rule, and a form.  While
a graph is built, a reference stands for a rule that need not exist yet; it
records the slot it sits in, so that the rule can be put there later.  The
members of a sequence or choice can change until it is frozen.
-/

namespace Pegboard

/-- The number of an expression in a store. -/
abbrev ExprId := Nat

/-- The kinds of expressions. -/
inductive Kind where
  | literal
  | regex
  | sequence
  | choice
  | optional
  | star
  | plus
  | lookahead
  | negation
  | reference
  | unknown
  deriving DecidableEq, Repr

/-- The word for a kind. -/
def Kind.label : Kind → Text
  | literal => "literal".toText
  | regex => "regex".toText
  | sequence => "sequence".toText
  | choice => "one_of".toText
  | optional => "optional".toText
  | star => "zero_or_more".toText
  | plus => "one_or_more".toText
  | lookahead => "lookahead".toText
  | negation => "not".toText
  | reference => "lazy_reference".toText
  | unknown => "unknown".toText

/-- The two ways to put members in order. -/
inductive Order where
  /-- All of them, one after the other. -/
  | sequence
  /-- The first of them that matches. -/
  | choice
  deriving DecidableEq, Repr

/-- The five ways to wrap one member. -/
inductive Wrap where
  /-- It matches here, without moving. -/
  | lookahead
  /-- It does not match here. -/
  | negation
  /-- Once or not at all. -/
  | optional
  /-- Any number of times. -/
  | star
  /-- At least so many times. -/
  | plus (least : Int)
  deriving DecidableEq, Repr

/-- The slot that a reference sits in. -/
structure Place where
  /-- The expression that holds it. -/
  parent : ExprId
  /-- Its number there, if the parent has several slots. -/
  slot : Option Int
  deriving DecidableEq, Repr

/-- The form of an expression. -/
inductive Form where
  /-- A text as it is. -/
  | literal (text : Text)
  /-- A pattern. -/
  | regex (pattern : Regex.Pattern)
  /-- Members in order, frozen or not. -/
  | compound (order : Order) (members : List ExprId) (frozen : Bool)
  /-- One member. -/
  | unary (wrap : Wrap) (member : ExprId)
  /-- A rule by its name, and the slot that waits for it. -/
  | reference (target : Text) (place : Option Place)
  /-- None of these. -/
  | unknown
  deriving DecidableEq

/-- An expression: its name and its form. -/
structure Cell where
  /-- The name, empty for an expression that is no rule. -/
  name : Text
  /-- The form. -/
  form : Form
  deriving DecidableEq

/-- The kind of an ordering. -/
def Order.kind : Order → Kind
  | sequence => .sequence
  | choice => .choice

/-- The kind of a wrapping. -/
def Wrap.kind : Wrap → Kind
  | lookahead => .lookahead
  | negation => .negation
  | optional => .optional
  | star => .star
  | plus _ => .plus

/-- The kind of a form. -/
def Form.kind : Form → Kind
  | literal _ => .literal
  | regex _ => .regex
  | compound order _ _ => order.kind
  | unary wrap _ => wrap.kind
  | reference _ _ => .reference
  | unknown => .unknown

/-- The expressions that a form holds, in order. -/
def Form.members : Form → List ExprId
  | compound _ members _ => members
  | unary _ member => [member]
  | literal _ | regex _ | reference _ _ | unknown => []

namespace Cell

/-- The kind of an expression. -/
def kind (c : Cell) : Kind := c.form.kind

/-- The expressions that an expression holds, in order. -/
def members (c : Cell) : List ExprId := c.form.members

/-- The target of a reference. -/
def target? (c : Cell) : Option Text :=
  match c.form with
  | .reference target _ => some target
  | _ => none

end Cell

/-- A store of expressions. -/
abbrev Store := Array Cell

namespace Store

/-- The expressions that an expression of the store holds. -/
def membersOf (store : Store) (e : ExprId) : List ExprId :=
  (store[e]?.map Cell.members).getD []

/-- The target, if the expression is a reference. -/
def targetOf? (store : Store) (e : ExprId) : Option Text := store[e]?.bind Cell.target?

/-- The name of an expression of the store. -/
def nameOf (store : Store) (e : ExprId) : Text := (store[e]?.map Cell.name).getD []

/-- The store with an expression changed. -/
def change (store : Store) (e : ExprId) (f : Cell → Cell) : Store :=
  match store[e]? with
  | some cell => store.setIfInBounds e (f cell)
  | none => store

end Store

end Pegboard
