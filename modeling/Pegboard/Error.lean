import Pegboard.Text.Position
import Pegboard.Text.Quoted

/-!
# Errors

Not matching is no error: a match gives a node or nothing.  An error says that a
grammar definition is wrong, that a rule or a file is missing, that a graph was
put together wrongly, or that a match went too deep.

Every error is a cause with what it speaks of, and `Error.message` words it.
-/

namespace Pegboard

/-- What can go wrong. -/
inductive Error where
  /-- A definition cannot be read past an offset. -/
  | stoppedAt (source : Text) (pos : Int)
  /-- A definition cannot be read. -/
  | unreadable
  /-- A literal, as written at an offset, spells no text. -/
  | badLiteral (written : Text) (pos : Int)
  /-- A pattern has a flag that is none. -/
  | unknownFlag (pattern flags : Text) (letter : Codepoint)
  /-- A pattern is rejected. -/
  | badPattern (pattern flags : Text)
  /-- A rule is defined twice. -/
  | duplicateRule (name : Text)
  /-- A reference names a rule that is not defined. -/
  | undefinedRule (name : Text)
  /-- A grammar has no rules. -/
  | emptyGrammar
  /-- A grammar has no rule of a name. -/
  | unknownRule (name : Text)
  /-- A tree of a definition has a node of another rule than the one wanted. -/
  | wrongNode (wanted found kind : Text) (pos : Int)
  /-- A tree of a definition has a node inside another one that cannot hold it. -/
  | strayNode (child parent : Text) (pos : Int)
  /-- A quantifier is none of the three. -/
  | unknownQuantifier (symbol : Text)
  /-- A child that was asked for does not exist. -/
  | missingChild
  /-- A reference has a parent already. -/
  | attachedTwice (target : Text)
  /-- A reference is still in a graph that is to be frozen. -/
  | unlinked (target : Text)
  /-- A reference has no slot to put its rule into. -/
  | unplaced (target : Text)
  /-- A reference has a parent with numbered slots and no number. -/
  | unnumbered (target : Text)
  /-- A slot number is past the slots of its parent. -/
  | slotOutOfRange
  /-- Members are inserted into what has no open member list. -/
  | closedMembers
  /-- A slot of a frozen expression is written. -/
  | frozenSlot
  /-- A match reached a reference. -/
  | referenceReached (target : Text)
  /-- An expression is of no known form. -/
  | unknownExpression
  /-- A match or a rendering went too deep. -/
  | tooDeep
  /-- A file is not UTF-8. -/
  | notUtf8
  /-- A file name holds a surrogate that has no form in file names. -/
  | unencodableName
  /-- A file name holds a NUL. -/
  | nullInName
  /-- Nothing lies under a handle. -/
  | unknownHandle (handle : Text)
  /-- The description of the definition language does not read itself. -/
  | selfDescription
  deriving DecidableEq

namespace Error

/-- A name between single quotes, as it is. -/
def named (name : Text) : Text := .char '\'' :: (name ++ [.char '\''])

/-- A pattern with its flags, as a message shows it. -/
def pattern (source flags : Text) : Text := "~".toText ++ source.quoted ++ flags

/-- The wording of an error. -/
def message : Error → Text
  | stoppedAt source pos =>
    "Grammar definition did not parse past ".toText ++ Text.ofNat (source.line pos) ++ [.char ':'] ++
      Text.ofInt (source.column pos) ++ .char '\n' :: source.snippet pos
  | unreadable => "Grammar definition did not parse".toText
  | badLiteral written _ => "Bad string literal ".toText ++ written
  | unknownFlag source flags letter =>
    "Invalid regex ".toText ++ pattern source flags ++ ": unknown flag ".toText ++
      Text.quoted [letter]
  | badPattern source flags => "Invalid regex ".toText ++ pattern source flags
  | duplicateRule name => "Rule ".toText ++ named name ++ " is defined more than once".toText
  | undefinedRule name => "Reference to undefined rule ".toText ++ named name
  | emptyGrammar => "Grammar defines no rules".toText
  | unknownRule name => "Grammar has no rule ".toText ++ named name
  | wrongNode wanted found kind pos =>
    "expected a ".toText ++ named wanted ++ " node, got ".toText ++ named found ++ " (".toText ++
      kind ++ ") at ".toText ++ Text.ofInt pos
  | strayNode child parent pos =>
    "unexpected ".toText ++ named child ++ " node inside ".toText ++ named parent ++
      " at ".toText ++ Text.ofInt pos
  | unknownQuantifier symbol => "unknown quantifier ".toText ++ symbol.quoted
  | missingChild => "no such child".toText
  | attachedTwice target =>
    "reference to ".toText ++ named target ++ " already has a parent".toText
  | unlinked target => "unresolved reference to ".toText ++ named target
  | unplaced target => "reference to ".toText ++ named target ++ " has no parent slot".toText
  | unnumbered target => "reference to ".toText ++ named target ++ " has no slot number".toText
  | slotOutOfRange => "no such slot".toText
  | closedMembers => "no open member list".toText
  | frozenSlot => "the slots are frozen".toText
  | referenceReached target =>
    "unresolved reference to ".toText ++ named target ++ " reached while matching".toText
  | unknownExpression => "unknown expression".toText
  | tooDeep => "nested too deep".toText
  | notUtf8 => "not valid UTF-8".toText
  | unencodableName => "a file name holds a surrogate".toText
  | nullInName => "a file name holds a NUL".toText
  | unknownHandle handle => "nothing under handle ".toText ++ named handle
  | selfDescription => "the definition language does not describe itself".toText

/-- Whether the error says that a definition is wrong. -/
def isDefinition : Error → Bool
  | stoppedAt _ _ | unreadable | badLiteral _ _ | unknownFlag _ _ _ | badPattern _ _
  | duplicateRule _ | undefinedRule _ | emptyGrammar => true
  | _ => false

end Error

end Pegboard
