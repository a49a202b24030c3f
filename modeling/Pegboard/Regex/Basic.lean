import Pegboard.Regex.CharSet

/-!
# Patterns as trees

A pattern is read into a tree of the type `Re`.  The tree is over a type of group
keys.  While a pattern is read, a group is referred to by its number or by its
name, and the name may belong to a group that comes later.  Once it is read, the
keys are resolved and the tree is over numbers.
-/

namespace Pegboard.Regex

/-- A place in the text, tested without moving. -/
inductive Anchor where
  /-- The start of the text. -/
  | start
  /-- The end of the text. -/
  | stop
  /-- The end of the text, or before a line feed that ends it. -/
  | stopOrLastLine
  /-- The start of a line. -/
  | lineStart
  /-- The end of a line. -/
  | lineStop
  /-- Between a word character and something else. -/
  | boundary (ascii : Bool)
  /-- Not between a word character and something else. -/
  | inside (ascii : Bool)
  /-- Before a word. -/
  | wordStart (ascii : Bool)
  /-- After a word. -/
  | wordStop (ascii : Bool)
  deriving DecidableEq, Repr

/-- How a loop decides between one more round and going on. -/
inductive Mode where
  /-- One more round first. -/
  | greedy
  /-- Going on first. -/
  | lazy
  /-- As many rounds as there are, and never fewer. -/
  | possessive
  deriving DecidableEq, Repr

/-- A pattern over a type of group keys. -/
inductive Re (κ : Type) where
  /-- Matches where it stands. -/
  | empty
  /-- One character of a set. -/
  | one (set : CharSet)
  /-- One after the other. -/
  | seq (first second : Re κ)
  /-- The first, or else the second. -/
  | alt (first second : Re κ)
  /-- A number of rounds of the body. -/
  | loop (body : Re κ) (least : Nat) (most : Option Nat) (mode : Mode)
  /-- The body, whose match the group keeps. -/
  | group (number : Nat) (body : Re κ)
  /-- The body by its first match only. -/
  | atomic (body : Re κ)
  /-- Whether the body matches from here, or up to here, without moving. -/
  | look (behind positive : Bool) (body : Re κ)
  /-- The text that a group has kept, once more. -/
  | back (key : κ) (ignoreCase ascii : Bool)
  /-- A place in the text. -/
  | anchor (place : Anchor)
  /-- The one if the group has kept a text, else the other. -/
  | ifGroup (key : κ) (yes no : Re κ)
  /-- The one if the look succeeds, else the other. -/
  | ifLook (behind positive : Bool) (test yes no : Re κ)
  deriving DecidableEq, Repr

namespace Re

variable {κ : Type}

/-- Whether nothing stands in the pattern that could fail. -/
def isEmpty : Re κ → Bool
  | empty => true
  | seq a b | alt a b => a.isEmpty && b.isEmpty
  | loop body _ _ _ | group _ body | atomic body => body.isEmpty
  | look _ positive body => positive && body.isEmpty
  | ifGroup _ yes no | ifLook _ _ _ yes no => yes.isEmpty && no.isEmpty
  | one _ | back _ _ _ | anchor _ => false

/-- The items of a sequence, one after the other. -/
def ofList : List (Re κ) → Re κ
  | [] => empty
  | [item] => item
  | item :: rest => seq item (ofList rest)

/-- A pattern that never matches. -/
def never : Re κ := look false false empty

/-- The pattern with its keys looked up, if all of them are found. -/
def resolve {κ' : Type} (group? test? : κ → Option κ') : Re κ → Option (Re κ')
  | empty => some empty
  | one set => some (one set)
  | seq a b => do return seq (← a.resolve group? test?) (← b.resolve group? test?)
  | alt a b => do return alt (← a.resolve group? test?) (← b.resolve group? test?)
  | loop body least most mode => do
    return loop (← body.resolve group? test?) least most mode
  | group number body => do return group number (← body.resolve group? test?)
  | atomic body => do return atomic (← body.resolve group? test?)
  | look behind positive body => do return look behind positive (← body.resolve group? test?)
  | back key ignoreCase ascii => do return back (← group? key) ignoreCase ascii
  | anchor place => some (anchor place)
  | ifGroup key yes no => do
    return ifGroup (← test? key) (← yes.resolve group? test?) (← no.resolve group? test?)
  | ifLook behind positive test yes no => do
    return ifLook behind positive (← test.resolve group? test?)
      (← yes.resolve group? test?) (← no.resolve group? test?)

end Re

end Pegboard.Regex
