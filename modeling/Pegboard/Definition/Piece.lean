import Pegboard.Definition.Reader

/-!
# Pieces of a definition

Every construct of the definition language can be compiled by itself.  A label or
quantifier is a text.  A construct that stands for a phrase, and a rule, become a
graph in which the references are still pending.  A whole definition becomes rules
that are linked and frozen.
-/

namespace Pegboard

/-- The constructs of the definition language. -/
inductive PieceKind where
  /-- A whole definition. -/
  | rules
  /-- A rule. -/
  | rule
  /-- A label. -/
  | label
  /-- A quantifier. -/
  | quantifier
  /-- A construct that stands for a phrase. -/
  | phrase (c : Construct)
  deriving DecidableEq, Repr

/-- All constructs that stand for a phrase. -/
def Construct.all : List Construct :=
  [expression, ored, orTerm, alternative, sequence, term, notTerm, lookaheadTerm, quantified, atom,
   parenthesized, reference, literal, regex]

/-- The construct of a rule of the definition language. -/
def PieceKind.ofLabel? (label : Text) : Option PieceKind :=
  if label = "rules".toText then some rules
  else if label = "rule".toText then some rule
  else if label = "label".toText then some .label
  else if label = "quantifier".toText then some quantifier
  else (Construct.all.find? fun c => c.label == label).map phrase

/-- A compiled piece. -/
inductive Piece where
  /-- A text. -/
  | text (value : Text)
  /-- A graph with its root and its pending references. -/
  | graph (store : Store) (root : ExprId) (pending : List ExprId)
  /-- A graph with its rules. -/
  | rules (store : Store) (rules : Rules)

/-- The piece of a step that makes an expression with pending references. -/
def Piece.ofBuild (step : Build (ExprId × List ExprId)) : Except Error Piece :=
  match step.runOn #[] with
  | (.ok (root, pending), store) => .ok (.graph store root pending)
  | (.error e, _) => .error e

/-- Compiles a node as a piece. -/
def Node.toPiece [Platform] (n : Node) : PieceKind → Except Error Piece
  | .label => n.toLabel.map .text
  | .quantifier => n.toQuantifier.map .text
  | .phrase c => (n.toPhrase c).bind fun p => Piece.ofBuild (p.build [])
  | .rule => n.toDefinition.bind fun d => Piece.ofBuild d.build
  | .rules =>
    n.toDefinitions.bind fun definitions =>
      match (Definition.assemble definitions).runOn #[] with
      | (.ok rules, store) => .ok (.rules store rules)
      | (.error e, _) => .error e

/-- The node at the end of a path of child indexes. -/
def Node.descend (n : Node) : List Int → Except Error Node
  | [] => .ok n
  | index :: rest =>
    match n.child? index with
    | some child => child.descend rest
    | none => .error .missingChild

end Pegboard
