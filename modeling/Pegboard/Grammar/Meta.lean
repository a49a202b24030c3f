import Pegboard.Definition.Reader
import Pegboard.Grammar.Basic
import Pegboard.Grammar.SelfDescription

/-!
# The grammar of definitions

The grammar that reads definition texts is made from its own description.  A graph
put together by hand, the core, understands just enough of the language to read
`ruleSource`.  The tree of that match is compiled, and the result is the grammar
that every other definition is read with.

The core leaves out parentheses and lookahead, which `ruleSource` does not use.
-/

namespace Pegboard

variable [Platform]

namespace Build

/-- The step of a value that may be an error. -/
def ofExcept {α : Type} (value : Except Error α) : Build α :=
  match value with
  | .ok a => return a
  | .error e => throw e

/-- Makes an expression of a written pattern. -/
def written (name : String) (source flags : String) : Build ExprId := do
  regex name.toText (← ofExcept (Regex.Pattern.ofWritten source.toText flags.toText))

/-- Makes a literal without a name. -/
def token (text : String) : Build ExprId := literal [] text.toText

/-- Makes a named sequence. -/
def sequence (name : String) (members : List ExprId) : Build ExprId :=
  compound name.toText .sequence members

/-- Makes a named choice. -/
def choice (name : String) (members : List ExprId) : Build ExprId :=
  compound name.toText .choice members

/-- Makes an expression without a name that wants its member at least once. -/
def atLeastOnce (member : ExprId) : Build ExprId := unary [] (.plus 1) member

/-- Puts the core together and gives its rules. -/
def core : Build Rules := do
  let comment ← written "comment" "#[^\\r\\n]*" ""
  let meaninglessness ←
    choice "meaninglessness" [← written "" "\\s+" "", comment]
  let layout ← unary "_".toText .star meaninglessness
  let equals ← sequence "equals" [← token "=", layout]
  let label ← sequence "label" [← written "" "[a-zA-Z_][a-zA-Z_0-9]*" "", layout]
  let reference ← sequence "reference" [label, ← unary [] .negation equals]
  let quantifier ← sequence "quantifier" [← written "" "[*+?]" "", layout]
  let spacelessLiteral ←
    written "spaceless_literal" "\"[^\"\\\\]*(?:\\\\.[^\"\\\\]*)*\"" "is"
  let literal ← sequence "literal" [spacelessLiteral, layout]
  let regex ← sequence "regex"
    [← token "~", spacelessLiteral, ← written "" "[ilmsuxa]*" "i", layout]
  let atom ← choice "atom" [reference, literal, regex]
  let quantified ← sequence "quantified" [atom, quantifier]
  let term ← choice "term" [quantified, atom]
  -- A negated term is made of a term, and a term may be a negated one.
  let notTerm ← sequence "not_term" [← token "!", term, layout]
  insert term 0 notTerm
  let terms ← sequence "sequence" [term, ← atLeastOnce term]
  let alternative ← choice "alternative" [terms, term]
  let orTerm ← sequence "or_term" [← token "/", layout, alternative]
  let ored ← sequence "ored" [alternative, ← atLeastOnce orTerm]
  let expression ← choice "expression" [ored, terms, term]
  let rule ← sequence "rule" [label, equals, expression]
  let rules ← sequence "rules" [layout, ← atLeastOnce rule]
  let named :=
    [rules, rule, equals, literal, spacelessLiteral, expression, orTerm, ored, alternative,
     terms, notTerm, term, quantified, atom, regex, quantifier, reference, label, layout,
     meaninglessness, comment]
  freeze named
  let store ← get
  return named.map fun e => (store.nameOf e, e)

end Build

namespace Grammar

/-- The grammar that a building step leads to from an empty store. -/
def ofBuild (step : Build Rules) (start : Option Text) : Except Error Grammar :=
  match step.runOn #[] with
  | (.error e, _) => .error e
  | (.ok rules, store) => (RuleTable.ofRules rules start).map fun table => ⟨store, table⟩

/-- The grammar of the tree of a definition text. -/
def ofTree (tree : Node) (start : Option Text) : Except Error Grammar :=
  match tree.toDefinitions with
  | .error e => .error e
  | .ok definitions => ofBuild (Definition.assemble definitions) start

/-- The core as a grammar. -/
def core : Except Error Grammar := ofBuild Build.core none

/-- Makes the grammar of definitions from its description. -/
def bootstrap : Except Error Grammar :=
  core.bind fun g =>
    match g.parse ruleSource (some "rules".toText) 0 with
    | .error e => .error e
    | .ok none => .error .selfDescription
    | .ok (some tree) =>
      if tree.stop = ruleSource.length then ofTree tree (some "rules".toText)
      else .error .selfDescription

/-- The grammar of definitions. -/
def definitions : Except Error Grammar := bootstrap

/-- Matches a definition text as a whole, nesting to the given depth at most.  Where
it cannot be read, the error points to the place where reading stopped, or past the
layout at its start. -/
def readSourceTo (reader : Grammar) (depth : Nat) (source : Text) : Except Error Node :=
  match reader.parseTo depth source (some "rules".toText) 0 with
  | .error e => .error e
  | .ok none =>
    match reader.parseTo depth source (some "_".toText) 0 with
    | .error e => .error e
    | .ok skipped => .error (.stoppedAt source ((skipped.map Node.stop).getD 0))
  | .ok (some tree) =>
    if tree.stop = source.length then .ok tree else .error (.stoppedAt source tree.stop)

/-- Compiles a definition text that is read to the given depth at most. -/
def compileTo (depth : Nat) (source : Text) (start : Option Text) : Except Error Grammar :=
  definitions.bind fun reader =>
    match reader.readSourceTo depth source with
    | .error e => .error e
    | .ok tree => ofTree tree start

/-- Compiles a definition text.  `start` is the rule to start with, if it is not
to be the first one. -/
def compile (source : Text) (start : Option Text) : Except Error Grammar :=
  compileTo Store.depthLimit source start

end Grammar

end Pegboard
