import Pegboard.Regex.Escape
import Pegboard.Regex.Matcher

/-!
# Reading a pattern

A pattern is alternatives of sequences of items.  An item is a character, a set,
an escape or a group, and a quantifier may follow it.  A quantifier needs an item
right before it: at the start of a sequence, or after another quantifier, it is
rejected.  A brace that spells no quantifier stands for itself.

Flags inside a pattern have two forms.  With a colon, as in `(?i:a)`, they hold
in their group.  Without one, as in `(?i)`, they hold for the whole pattern, which
is then read again, and they can only be set.

Reading is recursive descent.  Each call takes at least a character or is followed
by one that does, so a multiple of the length of the pattern bounds the calls.
-/

namespace Pegboard.Regex

/-- A pattern while it is read. -/
abbrev Draft := Re Key

/-- The draft that an escape stands for. -/
def Escape.toDraft (flags : Flags) : Escape → Draft
  | .code n => .one { members := [.code n], ignoreCase := flags.ignoreCase, ascii := flags.ascii }
  | .ofClass c positive =>
    .one { members := [.ofClass c positive], ignoreCase := flags.ignoreCase, ascii := flags.ascii }
  | .place a => .anchor a
  | .nothing => .empty
  | .group key => .back key flags.ignoreCase flags.ascii

/-- The draft of a character that stands for itself. -/
def plain (flags : Flags) (c : Codepoint) : Draft := (Escape.code c.toNat).toDraft flags

/-- The draft of a dot. -/
def dot (flags : Flags) : Draft :=
  .one { members := if flags.dotAll then [] else [.code 0x0a], positive := false }

/-! ## Quantifiers -/

/-- Takes the inside of a quantifier in braces, if it is one. -/
def braces? (verbose : Bool) : Reader (Option (Nat × Option Nat)) := do
  let here ← remaining
  let no : Reader (Option (Nat × Option Nat)) := do
    rewind here
    return none
  let least ← takeSpan verbose Codepoint.isAsciiDigit
  if ← accept verbose "," then
    let most ← takeSpan verbose Codepoint.isAsciiDigit
    if ← accept verbose "\x7d" then
      if most.isEmpty then return some (decimal least, none)
      if decimal most < decimal least then reject
      return some (decimal least, some (decimal most))
    no
  else if least.isEmpty then no
  else if ← accept verbose "\x7d" then return some (decimal least, some (decimal least))
  else no

/-- Takes a quantifier that starts with the given character, if it is one. -/
def quantifier? (verbose : Bool) : Codepoint → Reader (Option (Nat × Option Nat))
  | .char '?' => return some (0, some 1)
  | .char '*' => return some (0, none)
  | .char '+' => return some (1, none)
  | .char '\x7b' => braces? verbose
  | _ => return none

/-- Takes the mode that may follow a quantifier. -/
def quantifierMode (verbose : Bool) : Reader Mode := do
  if ← accept verbose "?" then return .lazy
  if ← accept verbose "+" then return .possessive
  return .greedy

/-- A draft under a quantifier.  Once means as it is, and so does any number for a
draft that is empty. -/
def quantified (item : Draft) (least : Nat) (most : Option Nat) (mode : Mode) : Draft :=
  if item.isEmpty || (least == 1 && most == some 1) then item else .loop item least most mode

/-! ## Groups -/

/-- What comes after a note, from `(?#` on.  A backslash hides the next character. -/
def afterNote? : Text → Option Text
  | [] => none
  | .char ')' :: rest => some rest
  | .char '\\' :: _ :: rest => afterNote? rest
  | _ :: rest => afterNote? rest

/-- The flag of a letter inside a pattern. -/
def inlineFlag? (c : Codepoint) : Option Flags :=
  if c = 'L' then some { locale := true } else if c = 'l' then none else Flags.ofLetter? c

/-- Takes flag letters. -/
def flagSet (verbose : Bool) : (fuel : Nat) → Reader Flags
  | 0 => reject
  | fuel + 1 => do
    let here ← remaining
    match (← next? verbose).bind inlineFlag? with
    | some f => return f.union (← flagSet verbose fuel)
    | none =>
      rewind here
      return {}

/-- Takes the flags of a group: those it sets and those it takes away. -/
def flagChange (verbose : Bool) : Reader (Flags × Flags) := do
  let fuel := (← remaining).length + 1
  let on ← flagSet verbose fuel
  if ← accept verbose "-" then
    let off ← flagSet verbose fuel
    if off.isNone then reject
    return (on, off)
  return (on, {})

/-- How `(` goes on. -/
inductive Opening where
  /-- Nothing that matches: a note, or flags for the whole pattern. -/
  | nothing
  /-- A draft by itself. -/
  | whole (draft : Draft)
  /-- A group that keeps its match. -/
  | keep (name : Option Text)
  /-- A group under flags of its own. -/
  | under (flags : Flags)
  /-- A group matched by its first match only. -/
  | atomic
  /-- A look ahead or behind. -/
  | look (behind positive : Bool)
  /-- Alternatives that count their groups alike. -/
  | reset
  /-- A choice by a group. -/
  | ifGroup (key : Key)
  /-- A choice by a look. -/
  | ifLook (behind positive : Bool)

/-- Takes the name of a group and its closing bracket. -/
def nameOpening (verbose : Bool) : Reader Opening := do
  match ← groupKey verbose false with
  | .name name =>
    expect verbose ">"
    return .keep (some name)
  | .number _ => reject

/-- Takes what follows `(?<`. -/
def angleOpening (verbose : Bool) : Reader Opening := do
  let here ← remaining
  match ← next? verbose with
  | some (.char '=') => return .look true true
  | some (.char '!') => return .look true false
  | _ =>
    rewind here
    nameOpening verbose

/-- Takes what follows `(?P`. -/
def namedOpening (flags : Flags) : Reader Opening := do
  match ← next? flags.verbose with
  | some (.char '<') => nameOpening flags.verbose
  | some (.char '=') =>
    let key ← groupKey flags.verbose true
    expect flags.verbose ")"
    if ← isOpenGroup key then reject
    return .whole (.back key flags.ignoreCase flags.ascii)
  | _ => reject

/-- Takes what follows `(?(`: the test of a choice. -/
def testOpening (verbose : Bool) : Reader Opening := do
  let here ← remaining
  match ← next? verbose with
  | some (.char '?') =>
    match ← next? verbose with
    | some (.char '=') => return .ifLook false true
    | some (.char '!') => return .ifLook false false
    | some (.char '<') =>
      match ← next? verbose with
      | some (.char '=') => return .ifLook true true
      | some (.char '!') => return .ifLook true false
      | _ => reject
    | _ => reject
  | _ =>
    rewind here
    let key ← groupKey verbose true
    expect verbose ")"
    return .ifGroup key

/-- Takes flags and what ends them.  Flags for the whole pattern can only be set,
and new ones start the reading over. -/
def flagOpening (whole flags : Flags) : Reader Opening := do
  let (on, off) ← flagChange flags.verbose
  if !(on.minus (on.minus off)).isNone then reject
  if ← accept flags.verbose ":" then return .under ((flags.union on).minus off)
  if ← accept flags.verbose ")" then
    if !off.isNone then reject
    if (on.minus whole).isNone then return .nothing
    throw (.restart (whole.union on))
  reject

/-- Takes what follows `(`. -/
def opening (whole flags : Flags) : Reader Opening := do
  let start ← remaining
  match ← next? false with
  | some (.char '?') =>
    let here ← remaining
    match ← next? false with
    | some (.char '<') => angleOpening flags.verbose
    | some (.char '=') => return .look false true
    | some (.char '!') => return .look false false
    | some (.char 'P') => namedOpening flags
    | some (.char '#') =>
      match afterNote? (← remaining) with
      | some rest =>
        rewind rest
        return .nothing
      | none => reject
    | some (.char '(') => testOpening flags.verbose
    | some (.char '>') => return .atomic
    | some (.char '|') => return .reset
    | _ =>
      rewind here
      flagOpening whole flags
  | some (.char '*') =>
    let word ← takeSpan flags.verbose fun c : Codepoint => c != ')' && c != '>'
    if word.head?.any Codepoint.isAsciiLetter then
      if word = "FAIL".toText || word = "F".toText then
        expect flags.verbose ")"
        return .whole .never
      reject
    rewind start
    return .keep none
  | _ =>
    rewind start
    return .keep none

/-! ## Sequences and alternatives -/

/-- The draft of the items read so far, latest first.  A `none` marks the place
after a quantifier. -/
def finish (items : List (Option Draft)) : Draft := .ofList (items.reverse.filterMap id)

mutual

/-- Takes alternatives, up to a closing parenthesis or the end. -/
def alternatives : (fuel : Nat) → (whole flags : Flags) → Reader Draft
  | 0, _, _ => reject
  | fuel + 1, whole, flags => do
    let first ← sequence fuel whole flags []
    if ← accept flags.verbose "|" then return .alt first (← alternatives fuel whole flags)
    return first

/-- Takes a sequence, up to a bar, a closing parenthesis or the end.  `items` are
the items before the place. -/
def sequence : (fuel : Nat) → (whole flags : Flags) → List (Option Draft) → Reader Draft
  | 0, _, _, _ => reject
  | fuel + 1, whole, flags, items => do
    let here ← remaining
    match ← next? flags.verbose with
    | none => return finish items
    | some c =>
      if c = ')' || c = '|' then
        rewind here
        return finish items
      else if c = '\\' then
        let item ← escape flags false
        sequence fuel whole flags (some (item.toDraft flags) :: items)
      else if c = '(' then
        match ← group fuel whole flags with
        | some item => sequence fuel whole flags (some item :: items)
        | none => sequence fuel whole flags items
      else if c = '.' then sequence fuel whole flags (some (dot flags) :: items)
      else if c = '[' then
        let set ← charSet flags
        sequence fuel whole flags (some (.one set) :: items)
      else if c = '^' then
        let place : Anchor := if flags.multiline then .lineStart else .start
        sequence fuel whole flags (some (.anchor place) :: items)
      else if c = '$' then
        let place : Anchor := if flags.multiline then .lineStop else .stopOrLastLine
        sequence fuel whole flags (some (.anchor place) :: items)
      else
        match ← quantifier? flags.verbose c with
        | none => sequence fuel whole flags (some (plain flags c) :: items)
        | some (least, most) =>
          match items with
          | some item :: before =>
            let mode ← quantifierMode flags.verbose
            sequence fuel whole flags (none :: some (quantified item least most mode) :: before)
          | _ => reject

/-- Takes a group, after its opening parenthesis, or a note or flags. -/
def group : (fuel : Nat) → (whole flags : Flags) → Reader (Option Draft)
  | 0, _, _ => reject
  | fuel + 1, whole, flags => do
    match ← opening whole flags with
    | .nothing => return none
    | .whole draft => return some draft
    | .keep name =>
      let number ← openGroup name
      let body ← alternatives fuel whole flags
      expect flags.verbose ")"
      closeGroup
      return some (.group number body)
    | .under inner =>
      let body ← alternatives fuel whole inner
      expect inner.verbose ")"
      return some body
    | .atomic =>
      let body ← alternatives fuel whole flags
      expect flags.verbose ")"
      return some (.atomic body)
    | .look behind positive =>
      let body ← alternatives fuel whole flags
      expect flags.verbose ")"
      return some (.look behind positive body)
    | .reset =>
      let body ← resetAlternatives fuel whole flags (← get).count
      expect flags.verbose ")"
      return some body
    | .ifGroup key =>
      let (yes, no) ← branches fuel whole flags
      if yes.isEmpty && no.isEmpty then return some .empty
      return some (.ifGroup key yes no)
    | .ifLook behind positive =>
      let test ← alternatives fuel whole flags
      expect flags.verbose ")"
      let (yes, no) ← branches fuel whole flags
      return some (.ifLook behind positive test yes no)

/-- Takes the two branches of a choice; the second one may be missing. -/
def branches : (fuel : Nat) → (whole flags : Flags) → Reader (Draft × Draft)
  | 0, _, _ => reject
  | fuel + 1, whole, flags => do
    let yes ← sequence fuel whole flags []
    let no ← if ← accept flags.verbose "|" then sequence fuel whole flags [] else pure .empty
    expect flags.verbose ")"
    return (yes, no)

/-- Takes alternatives whose groups are all counted from the same number. -/
def resetAlternatives : (fuel : Nat) → (whole flags : Flags) → (start : Nat) → Reader Draft
  | 0, _, _, _ => reject
  | fuel + 1, whole, flags, start => do
    let first ← sequence fuel whole flags []
    let last := (← get).count
    if ← accept flags.verbose "|" then
      modify fun s => { s with count := start }
      let rest ← resetAlternatives fuel whole flags start
      modify fun s => { s with count := max last s.count }
      return .alt first rest
    return first

end

/-- The number of a group that a reference may name. -/
def Scan.reference? (s : Scan) (key : Key) : Option Nat :=
  (s.groupNumber? key).filter fun n => 1 ≤ n && n ≤ s.count

/-- The number of a group that a choice may test.  The name `DEFINE` is that of a
group that keeps nothing, unless there is one of that name. -/
def Scan.test? (s : Scan) (key : Key) : Option Nat :=
  match s.reference? key with
  | some n => some n
  | none => if key = .name "DEFINE".toText then some 0 else none

/-- Reads a whole pattern under flags. -/
def readWhole (flags : Flags) : Reader (Re Nat) := do
  let draft ← alternatives (4 * (← remaining).length + 8) flags flags
  if (← next? flags.verbose).isSome then reject
  let s ← get
  match draft.resolve s.reference? s.test? with
  | some re => return re
  | none => reject

/-- Reads a pattern, again under more flags as long as it sets some.  The number
bounds how often. -/
def readAgain (source : Text) : (tries : Nat) → Flags → Option (Re Nat)
  | 0, _ => none
  | tries + 1, flags =>
    match readWhole flags { rest := source } with
    | .ok (re, _) => if flags.conflict then none else some re
    | .error .rejected => none
    | .error (.restart more) => readAgain source tries more

/-- The pattern that a source spells under flags, if it spells one.  Every new
reading sets one of the seven flags. -/
def read? (source : Text) (flags : Flags) : Option (Re Nat) := readAgain source 8 flags

end Pegboard.Regex
