import Pegboard.Regex.Basic
import Pegboard.Text.Basic

/-!
# Matching a pattern

A pattern is matched by trying its ways in order and going back to the last
choice when what follows fails.  `Re.run` takes what follows as a function, its
continuation, and answers with the first way that the continuation accepts.

The state of a match is where it stands in the text and what the groups have
kept.  A look behind runs its body backwards: it reads the characters before the
place from right to left, and the items of a sequence from last to first.

A loop ends at a round that does not move.  So every round but the last one
consumes a character, and the characters still ahead bound the rounds.  The
recursion is structural in the pattern, and in those characters for a loop.
-/

namespace Pegboard.Regex

/-- Where a match stands, and what its groups have kept. -/
structure State where
  /-- How many characters are before the place. -/
  pos : Nat
  /-- The characters before the place, nearest first. -/
  before : Text
  /-- The characters after the place. -/
  after : Text
  /-- What the groups have kept, latest first. -/
  kept : List (Nat × Text)
  deriving DecidableEq, Repr

namespace State

/-- The state at the start of a text. -/
def start (text : Text) : State := ⟨0, [], text, []⟩

/-- The characters ahead of the place in a direction. -/
def ahead (s : State) (backward : Bool) : Text := if backward then s.before else s.after

/-- The state past the next character of a direction, and that character. -/
def next? (s : State) : (backward : Bool) → Option (Codepoint × State)
  | false =>
    match s.after with
    | [] => none
    | c :: rest => some (c, { s with pos := s.pos + 1, before := c :: s.before, after := rest })
  | true =>
    match s.before with
    | [] => none
    | c :: rest => some (c, { s with pos := s.pos - 1, before := rest, after := c :: s.after })

/-- What a group has kept last. -/
def group? (s : State) (number : Nat) : Option Text := s.kept.lookup number

/-- The text between two states of one match. -/
def between (s t : State) : Text :=
  if s.pos ≤ t.pos then s.after.take (t.pos - s.pos) else t.after.take (s.pos - t.pos)

/-- The state after a group has kept the text from a former state up to here. -/
def keep (s : State) (number : Nat) (former : State) : State :=
  { s with kept := (number, former.between s) :: s.kept }

/-- The state past a given text, read in a direction. -/
def past? (same : Codepoint → Codepoint → Bool) (backward : Bool) : Text → State → Option State
  | [], s => some s
  | c :: rest, s =>
    match s.next? backward with
    | none => none
    | some (d, s') => if same c d then past? same backward rest s' else none

end State

/-- Whether a character is a word character. -/
def isWordChar (ascii : Bool) (c : Codepoint) : Bool :=
  (!ascii || c.toNat < 0x80) && Codepoint.isWord c.toNat

/-- Whether the place stands between a word character and something else: the
character before it is one, and the character after it is one. -/
def State.wordSides (s : State) (ascii : Bool) : Bool × Bool :=
  (s.before.head?.any (isWordChar ascii), s.after.head?.any (isWordChar ascii))

/-- Whether a state stands at a place. -/
def Anchor.holds : Anchor → State → Bool
  | start, s => s.before.isEmpty
  | stop, s => s.after.isEmpty
  | stopOrLastLine, s => s.after.isEmpty || s.after == [.char '\n']
  | lineStart, s => s.before.head?.all (· == Codepoint.char '\n')
  | lineStop, s => s.after.head?.all (· == Codepoint.char '\n')
  | boundary ascii, s => (s.wordSides ascii).1 != (s.wordSides ascii).2
  | inside ascii, s => (s.wordSides ascii).1 == (s.wordSides ascii).2
  | wordStart ascii, s => !(s.wordSides ascii).1 && (s.wordSides ascii).2
  | wordStop ascii, s => (s.wordSides ascii).1 && !(s.wordSides ascii).2

/-- Whether two characters are equal, or case variants if case is ignored. -/
def sameChar (ignoreCase ascii : Bool) (c d : Codepoint) : Bool :=
  CharSet.holds { members := [.code c.toNat], ignoreCase, ascii } d

/-- What follows in a match: the state it ends in, if it can go on. -/
abbrev Following := State → Option State

/-- One decision of a loop.  `body` is the round, `again` the rest of the loop
after a round that moved, `done` what follows the loop. -/
def round (body : State → Following → Option State) (lazy : Bool) (least : Nat)
    (most : Option Nat) (done again : Following) (count : Nat) (s : State) : Option State :=
  let more : Unit → Option State := fun _ =>
    if most.any (· ≤ count) then none
    else body s fun t => if t.pos = s.pos then done t else again t
  let stop : Unit → Option State := fun _ => if count < least then none else done s
  if lazy then (stop ()).orElse more else (more ()).orElse stop

/-- A loop from a state in which `count` rounds are over.  The list bounds the
rounds that can still move. -/
def rounds (body : State → Following → Option State) (lazy : Bool) (least : Nat)
    (most : Option Nat) (done : Following) : Text → Nat → Following
  | [], count, s => round body lazy least most done (fun _ => none) count s
  | _ :: ahead, count, s =>
    round body lazy least most done (rounds body lazy least most done ahead (count + 1)) count s

/-- The state that the first match of a pattern leads to which the continuation
accepts. -/
def Re.run : Re Nat → (backward : Bool) → State → Following → Option State
  | empty, _, s, k => k s
  | one set, backward, s, k =>
    match s.next? backward with
    | none => none
    | some (c, s') => if set.holds c then k s' else none
  | seq a b, backward, s, k =>
    if backward then b.run backward s fun t => a.run backward t k
    else a.run backward s fun t => b.run backward t k
  | alt a b, backward, s, k => (a.run backward s k).orElse fun _ => b.run backward s k
  | loop body least most .possessive, backward, s, k =>
    match rounds (body.run backward) false least most some (s.ahead backward) 0 s with
    | none => none
    | some t => k t
  | loop body least most .greedy, backward, s, k =>
    rounds (body.run backward) false least most k (s.ahead backward) 0 s
  | loop body least most .lazy, backward, s, k =>
    rounds (body.run backward) true least most k (s.ahead backward) 0 s
  | group number body, backward, s, k => body.run backward s fun t => k (t.keep number s)
  | atomic body, backward, s, k =>
    match body.run backward s some with
    | none => none
    | some t => k t
  | look behind positive body, _, s, k =>
    match body.run behind s some with
    | none => if positive then none else k s
    | some t => if positive then k { s with kept := t.kept } else none
  | back number ignoreCase ascii, backward, s, k =>
    match s.group? number with
    | none => none
    | some text =>
      match State.past? (sameChar ignoreCase ascii) backward
          (if backward then text.reverse else text) s with
      | none => none
      | some t => k t
  | anchor place, _, s, k => if place.holds s then k s else none
  | ifGroup number yes no, backward, s, k =>
    if (s.group? number).isSome then yes.run backward s k else no.run backward s k
  | ifLook behind positive test yes no, backward, s, k =>
    match test.run behind s some with
    | none => if positive then no.run backward s k else yes.run backward s k
    | some t =>
      if positive then yes.run backward { s with kept := t.kept } k else no.run backward s k

/-- How many characters the pattern matches at the start of a text. -/
def Re.matchLength? (re : Re Nat) (text : Text) : Option Nat :=
  (re.run false (.start text) some).map State.pos

example : Re.matchLength? (.loop (.one ⟨[.code 0x61], true, false, false⟩) 0 none .greedy)
    "aab".toText = some 2 := by decide

end Pegboard.Regex
