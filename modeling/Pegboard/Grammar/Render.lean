import Pegboard.Definition.Literal
import Pegboard.Grammar.Basic

/-!
# Grammars as definitions

A grammar is written back as a definition text, one rule a line, the one to start
with first.  Inside a rule a named expression is written by its name.  Parentheses
go around a sequence or choice of several members, and around a wrapped member
under a quantifier.

An expression without a name that holds itself has no finite text.  Rendering takes
the depth to which it may nest, as matching does.
-/

namespace Pegboard.Store

/-- What is written before the member of a wrapping. -/
def leading : Wrap → Text
  | .lookahead => ['&']
  | .negation => ['!']
  | .optional | .star | .plus _ => []

/-- What is written after the member of a wrapping. -/
def trailing : Wrap → Text
  | .optional => ['?']
  | .star => ['*']
  | .plus _ => ['+']
  | .lookahead | .negation => []

/-- Whether a wrapping is a quantifier. -/
def isQuantifier : Wrap → Bool
  | .optional | .star | .plus _ => true
  | .lookahead | .negation => false

/-- Whether an expression needs parentheses as a member, of a quantifier or not. -/
def needsParens (inQuantifier : Bool) : Form → Bool
  | .compound _ members _ => decide (1 < members.length)
  | .unary _ _ => inQuantifier
  | _ => false

/-- A text in parentheses, if they are needed. -/
def parens (needed : Bool) (text : Text) : Text :=
  if needed then .char '(' :: (text ++ [.char ')']) else text

/-- Renders members, each by the given function. -/
def renderAll (render : ExprId → Except Error Text) : List ExprId → Except Error (List Text)
  | [] => .ok []
  | e :: rest => do
    let first ← render e
    return first :: (← renderAll render rest)

/-- The text of a member: its name if it has one, else its right-hand side. -/
def memberText (store : Store) (render : ExprId → Except Error Text) (inQuantifier : Bool)
    (e : ExprId) : Except Error Text :=
  match store[e]? with
  | none => .error .unknownExpression
  | some cell =>
    if cell.name.isEmpty then (render e).map (parens (needsParens inQuantifier cell.form))
    else .ok cell.name

/-- What is written between the members of an ordering. -/
def separator : Order → Text
  | .sequence => [' ']
  | .choice => [' ', '/', ' ']

/-- The right-hand side of a rule for an expression, nesting to the given depth at
most. -/
def renderAt (store : Store) : (depth : Nat) → ExprId → Except Error Text
  | 0, _ => .error .tooDeep
  | depth + 1, e =>
    match store[e]? with
    | none => .error .unknownExpression
    | some cell =>
      match cell.form with
      | .literal text => .ok (Literal.write text)
      | .regex pattern => .ok (Literal.writePattern pattern.source ++ pattern.flags.letters)
      | .compound order members _ =>
        (renderAll (store.memberText (store.renderAt depth) false) members).map
          (Text.join (separator order))
      | .unary wrap member =>
        (store.memberText (store.renderAt depth) (isQuantifier wrap) member).map fun text =>
          leading wrap ++ text ++ trailing wrap
      | .reference target _ => .ok target
      | .unknown => .error .unknownExpression

/-- The right-hand side of a rule for an expression. -/
def renderRhs (store : Store) (e : ExprId) : Except Error Text := store.renderAt depthLimit e

/-- The rule for an expression: its name, if it has one, and its right-hand side,
which nests to the given depth at most. -/
def renderRuleTo (store : Store) (depth : Nat) (e : ExprId) : Except Error Text :=
  (store.renderAt depth e).map fun rhs =>
    if (store.nameOf e).isEmpty then rhs else store.nameOf e ++ " = ".toText ++ rhs

/-- The rule for an expression. -/
def renderRule (store : Store) (e : ExprId) : Except Error Text := store.renderRuleTo depthLimit e

end Pegboard.Store

namespace Pegboard

/-- The expressions of the rules, the one to start with first. -/
def RuleTable.rootsFromStart (t : RuleTable) : List ExprId :=
  (t.rules.lookup t.start).toList ++ (t.rules.filter fun r => r.1 != t.start).map (·.2)

namespace Grammar

/-- The definition text of a grammar, nesting to the given depth at most. -/
def renderTo (g : Grammar) (depth : Nat) : Except Error Text :=
  (Store.renderAll (g.store.renderRuleTo depth) g.table.rootsFromStart).map (Text.join ['\n'])

/-- The definition text of a grammar. -/
def render (g : Grammar) : Except Error Text := g.renderTo Store.depthLimit

end Grammar

end Pegboard
