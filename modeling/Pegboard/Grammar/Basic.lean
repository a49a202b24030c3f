import Pegboard.Expr.Link
import Pegboard.Match
import Pegboard.Text.Quoted

/-!
# Grammars

A grammar is a store of expressions with a table of rules.  The table gives each
rule its expression and says which rule is the one to start with.  Without another
wish, that is the first rule.
-/

namespace Pegboard

/-- The rules of a grammar and the one to start with. -/
structure RuleTable where
  /-- The rules, in order. -/
  rules : Rules
  /-- The rule to start with. -/
  start : Text

namespace RuleTable

/-- The table of rules.  There has to be a rule, and the one to start with has to
be among them. -/
def ofRules (rules : Rules) (start : Option Text) : Except Error RuleTable :=
  match rules, start with
  | [], _ => .error .emptyGrammar
  | (name, _) :: _, none => .ok ⟨rules, name⟩
  | _ :: _, some name =>
    if (rules.lookup name).isSome then .ok ⟨rules, name⟩ else .error (.unknownRule name)

/-- The expression of a rule. -/
def rule (t : RuleTable) (name : Text) : Except Error ExprId :=
  match t.rules.lookup name with
  | some e => .ok e
  | none => .error (.unknownRule name)

/-- The names of the rules, in order. -/
def names (t : RuleTable) : List Text := t.rules.map (·.1)

/-- The expressions of the rules, in order. -/
def roots (t : RuleTable) : List ExprId := t.rules.map (·.2)

/-- Whether there is a rule of a name. -/
def contains (t : RuleTable) (name : Text) : Bool := (t.rules.lookup name).isSome

/-- The table in one line. -/
def summary (t : RuleTable) : Text :=
  "<Grammar rules=".toText ++ Text.ofNat t.rules.length ++ " default=".toText ++ t.start.quoted ++
    [.char '>']

end RuleTable

/-- A grammar. -/
structure Grammar where
  /-- Its expressions. -/
  store : Store
  /-- Its rules. -/
  table : RuleTable

namespace Grammar

variable [Platform]

/-- Matches a rule of a grammar, or the one to start with, at an offset of a text,
nesting to the given depth at most. -/
def parseTo (g : Grammar) (depth : Nat) (text : Text) (rule : Option Text) (pos : Int) :
    Store.Outcome :=
  match g.table.rule (rule.getD g.table.start) with
  | .error err => .error err
  | .ok e => g.store.matchAt text depth e pos

/-- Matches a rule of a grammar, or the one to start with, at an offset of a text. -/
def parse (g : Grammar) (text : Text) (rule : Option Text) (pos : Int) : Store.Outcome :=
  g.parseTo Store.depthLimit text rule pos

end Grammar

end Pegboard
