import Pegboard.Expr.Freeze
import Pegboard.Expr.Link

/-!
# Phrases and definitions

The right-hand side of a rule is a phrase: a finite tree of literals, patterns and
references under sequences, choices and wrappings.  A definition is a phrase with
its label.

A phrase becomes expressions of a store.  Each of its parts becomes one expression,
members before the expression that holds them, and the references are kept in the
order in which they are written.  A phrase that is just a reference gets a sequence
around it when it is a definition, so that there is a slot for the rule it names.
-/

namespace Pegboard

/-- The right-hand side of a rule. -/
inductive Phrase where
  /-- A text as it is. -/
  | literal (text : Text)
  /-- A pattern. -/
  | regex (pattern : Regex.Pattern)
  /-- A rule by its name. -/
  | reference (target : Text)
  /-- Members in order. -/
  | compound (order : Order) (members : List Phrase)
  /-- One member. -/
  | unary (wrap : Wrap) (member : Phrase)

/-- A rule as it is written. -/
structure Definition where
  /-- Its name. -/
  label : Text
  /-- Its right-hand side. -/
  body : Phrase

namespace Phrase

mutual

/-- The targets of the references in a phrase, in the order of writing. -/
def targets : Phrase → List Text
  | literal _ | regex _ => []
  | reference target => [target]
  | compound _ members => targetsAll members
  | unary _ member => member.targets

/-- The targets of the references in phrases. -/
def targetsAll : List Phrase → List Text
  | [] => []
  | p :: rest => p.targets ++ targetsAll rest

end

mutual

/-- Makes the expressions of a phrase.  Gives the expression of the whole and the
references in it, in the order of writing. -/
def build (name : Text) : Phrase → Build (ExprId × List ExprId)
  | literal text => do return (← Build.literal name text, [])
  | regex pattern => do return (← Build.regex name pattern, [])
  | reference target => do
    let e ← Build.reference name target
    return (e, [e])
  | compound order members => do
    let (members, pending) ← buildAll members
    return (← Build.compound name order members, pending)
  | unary wrap member => do
    let (member, pending) ← member.build []
    return (← Build.unary name wrap member, pending)

/-- Makes the expressions of members, which have no names. -/
def buildAll : List Phrase → Build (List ExprId × List ExprId)
  | [] => return ([], [])
  | p :: rest => do
    let (e, pending) ← p.build []
    let (others, more) ← buildAll rest
    return (e :: others, pending ++ more)

end

/-- The phrase with a sequence around it if it is just a reference. -/
def wrapped : Phrase → Phrase
  | reference target => compound .sequence [reference target]
  | p => p

end Phrase

namespace Definition

/-- Makes the expressions of a definition. -/
def build (d : Definition) : Build (ExprId × List ExprId) := d.body.wrapped.build d.label

/-- Makes the expressions of definitions: the rules, and the references in them. -/
def buildAll : List Definition → Build (Rules × List ExprId)
  | [] => return ([], [])
  | d :: rest => do
    let (e, pending) ← d.build
    let (rules, more) ← buildAll rest
    return ((d.label, e) :: rules, pending ++ more)

/-- Makes the graph of definitions, linked and frozen, and gives its rules. -/
def assemble (definitions : List Definition) : Build Rules := do
  let (rules, pending) ← buildAll definitions
  Build.link rules pending
  Build.freeze (rules.map (·.2))
  return rules

end Definition

end Pegboard
