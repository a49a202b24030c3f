import Pegboard.Regex.Scan

/-!
# Escapes and sets in a pattern

A backslash gives the character after it a meaning of its own: a character that
cannot be typed, a class, a place, or a group seen before.  A letter of ASCII
without a meaning is rejected, and every other character stands for itself.

Between brackets stands a set.  The first member may be a closing bracket, a
hyphen between two characters makes a range, and blanks count even in a verbose
pattern.
-/

namespace Pegboard.Regex

/-- What an escape stands for. -/
inductive Escape where
  /-- A character, by its code point. -/
  | code (n : Nat)
  /-- A class, or its complement. -/
  | ofClass (c : CharClass) (positive : Bool)
  /-- A place. -/
  | place (a : Anchor)
  /-- The place where the match began to count. -/
  | nothing
  /-- What a group has kept. -/
  | group (key : Key)

/-- Takes exactly so many hexadecimal digits and gives their number. -/
def hexNumber (verbose : Bool) : (digits : Nat) → (start : Nat) → Reader Nat
  | 0, n => return n
  | digits + 1, n => do
    match (← next? verbose).bind Codepoint.hexValue? with
    | none => reject
    | some d => hexNumber verbose digits (16 * n + d)

/-- Takes up to so many octal digits. -/
def octalDigits (verbose : Bool) : (digits : Nat) → Reader Text
  | 0 => return []
  | digits + 1 => do
    let here ← remaining
    match ← next? verbose with
    | some c =>
      if c.isOctal then return c :: (← octalDigits verbose digits)
      else
        rewind here
        return []
    | none =>
      rewind here
      return []

/-! ## Classes by name -/

/-- A property name without blanks, hyphens, underscores and case. -/
def standardName (name : Text) : Text :=
  (name.filter fun c : Codepoint => !(c = ' ' || c = '-' || c = '_')).map Codepoint.asciiUpper

/-- The class of a name. -/
def CharClass.ofName? (name : Text) : Option CharClass :=
  let known : List (String × CharClass) :=
    [("L", .letter), ("LETTER", .letter), ("LU", .upper), ("UPPERCASELETTER", .upper),
     ("UPPER", .upper), ("UPPERCASE", .upper), ("LL", .lower), ("LOWERCASELETTER", .lower),
     ("LOWER", .lower), ("LOWERCASE", .lower), ("ND", .digit), ("DECIMALNUMBER", .digit),
     ("DIGIT", .digit), ("ALPHA", .alphabetic), ("ALPHABETIC", .alphabetic),
     ("ALNUM", .alphanumeric), ("SPACE", .space), ("WHITESPACE", .space), ("WORD", .word),
     ("ANY", .any)]
  (known.find? fun (key, _) => key.toText == standardName name).map (·.2)

/-- Whether a name says that a general category follows. -/
def isCategory (name : Text) : Bool :=
  ["GC", "CATEGORY", "GENERALCATEGORY"].any fun key => key.toText == standardName name

/-- Takes a property name, after the kind of property and a colon or equals sign
if these are written. -/
def propertyName (verbose : Bool) : Reader (Option Text × Text) := do
  let part := fun c : Codepoint =>
    c.isAsciiLetter || c.isAsciiDigit || " &_-.".toText.contains c
  let name ← takeSpan verbose part
  let here ← remaining
  match ← next? verbose with
  | some c =>
    if c = ':' || c = '=' then
      let value ← takeSpan verbose fun c => part c || c = '/'
      if value.isEmpty then
        rewind here
        return (none, name)
      else return (some name, value)
    else
      rewind here
      return (none, name)
  | none =>
    rewind here
    return (none, name)

/-- The class of a property name; a name that is unknown is rejected. -/
def classNamed : Option Text × Text → Reader CharClass
  | (kind, name) => do
    if !kind.all isCategory then reject
    match CharClass.ofName? name with
    | some c => return c
    | none => reject

/-- Takes the rest of a property escape. -/
def property (verbose positive : Bool) : Reader Escape := do
  let here ← remaining
  let plain : Reader Escape := do
    rewind here
    return .code (if positive then 0x70 else 0x50)
  match ← next? verbose with
  | some (.char '{') =>
    let negated ← accept verbose "^"
    let name ← propertyName verbose
    if ← accept verbose "\x7d" then return .ofClass (← classNamed name) (positive != negated)
    else plain
  | some c =>
    if "CLMNPSZ".toText.contains c then
      return .ofClass (← classNamed (none, [c])) positive
    else plain
  | none => plain

/-! ## Escapes -/

/-- The place that a letter stands for outside a set. -/
def placeEscape? (ascii : Bool) : Codepoint → Option Escape
  | .char 'A' => some (.place .start)
  | .char 'b' => some (.place (.boundary ascii))
  | .char 'B' => some (.place (.inside ascii))
  | .char 'G' => some (.place .start)
  | .char 'K' => some .nothing
  | .char 'm' => some (.place (.wordStart ascii))
  | .char 'M' => some (.place (.wordStop ascii))
  | .char 'Z' => some (.place .stop)
  | _ => none

/-- The class or character that a letter stands for. -/
def letterEscape? : Codepoint → Option Escape
  | .char 'd' => some (.ofClass .digit true)
  | .char 'D' => some (.ofClass .digit false)
  | .char 's' => some (.ofClass .space true)
  | .char 'S' => some (.ofClass .space false)
  | .char 'w' => some (.ofClass .word true)
  | .char 'W' => some (.ofClass .word false)
  | .char 'a' => some (.code 0x07)
  | .char 'b' => some (.code 0x08)
  | .char 'f' => some (.code 0x0c)
  | .char 'n' => some (.code 0x0a)
  | .char 'r' => some (.code 0x0d)
  | .char 't' => some (.code 0x09)
  | .char 'v' => some (.code 0x0b)
  | _ => none

/-- Takes what follows `\g`: a group between angle brackets.  Anything else makes
the escape a plain letter. -/
def groupEscape (verbose : Bool) : Reader Escape := fun s =>
  let attempt : Reader Escape := do
    expect verbose "<"
    let key ← groupKey verbose true
    expect verbose ">"
    if ← isOpenGroup key then reject
    return .group key
  match attempt s with
  | .ok answer => .ok answer
  | .error _ => .ok (.code 0x67, s)

/-- The escape of a group that is closed. -/
def closedGroup (number : Nat) : Reader Escape := do
  if ← isOpenGroup (.number number) then reject
  return .group (.number number)

/-- Takes the rest of an escape that began with a digit: a character by its octal
number, or a group. -/
def digitEscape (flags : Flags) (inSet : Bool) (first : Codepoint) : Reader Escape := do
  let verbose := flags.verbose
  if inSet || first = '0' then
    if !first.isOctal then reject
    return .code (Text.octalNumber (first :: (← octalDigits verbose 2)))
  let one ← remaining
  match ← next? verbose with
  | some second =>
    if second.isAsciiDigit then
      let two ← remaining
      let third ← next? verbose
      if first.isOctal && second.isOctal && third.any Codepoint.isOctal then
        let limit := if flags.ascii || flags.locale then 0x100 else 0x200
        return .code (Text.octalNumber (first :: second :: third.toList) % limit)
      rewind two
      closedGroup (decimal [first, second])
    else
      rewind one
      closedGroup (decimal [first])
  | none =>
    rewind one
    closedGroup (decimal [first])

/-- The escape of a code point, which must not lie past the last one. -/
def numberedChar (n : Nat) : Reader Escape := if n < 0x110000 then return .code n else reject

/-- Takes an escape, after its backslash. -/
def escape (flags : Flags) (inSet : Bool) : Reader Escape := do
  let verbose := flags.verbose && !inSet
  match ← next? false with
  | none => reject
  | some c =>
    if c = 'x' then numberedChar (← hexNumber verbose 2 0)
    else if c = 'u' then numberedChar (← hexNumber verbose 4 0)
    else if c = 'U' then numberedChar (← hexNumber verbose 8 0)
    else if c = 'g' then groupEscape verbose
    else if c = 'p' || c = 'P' then property verbose (c = 'p')
    else if c.isAsciiLetter then
      match if inSet then none else placeEscape? flags.ascii c with
      | some answer => return answer
      | none =>
        match letterEscape? c with
        | some answer => return answer
        | none => reject
    else if c.isAsciiDigit then digitEscape { flags with verbose } inSet c
    else return .code c.toNat

/-! ## Sets -/

/-- Takes a class such as `[:alpha:]`, if one comes next. -/
def bracketClass? : Reader (Option Member) := do
  let here ← remaining
  if ← accept false "[:" then
    let negated ← accept false "^"
    let name ← propertyName false
    if ← accept false ":]" then return some (.ofClass (← classNamed name) (!negated))
  rewind here
  return none

/-- Takes one item of a set. -/
def setItem (flags : Flags) : Reader Member := do
  if ← accept false "\\" then
    match ← escape flags true with
    | .code n => return .code n
    | .ofClass c positive => return .ofClass c positive
    | _ => reject
  else
    match ← bracketClass? with
    | some item => return item
    | none =>
      match ← next? false with
      | some c => return .code c.toNat
      | none => reject

/-- Takes an item of a set, or a range. -/
def setMember (flags : Flags) : Reader (List Member) := do
  match ← setItem flags with
  | .code low =>
    if ← accept false "-" then
      let here ← remaining
      if ← accept false "]" then
        rewind here
        return [.code low, .code 0x2d]
      match ← setItem flags with
      | .code high =>
        if high < low then reject
        return [.range low high]
      | item => return [.code low, .code 0x2d, item]
    else return [.code low]
  | item => return [item]

/-- Takes the members of a set after the first one, up to the closing bracket. -/
def setMembers (flags : Flags) : (fuel : Nat) → Reader (List Member)
  | 0 => reject
  | fuel + 1 => do
    if ← accept false "]" then return []
    let first ← setMember flags
    return first ++ (← setMembers flags fuel)

/-- Takes a set, after its opening bracket. -/
def charSet (flags : Flags) : Reader CharSet := do
  let negated ← accept false "^"
  let first ← setMember flags
  let rest ← setMembers flags ((← remaining).length + 1)
  return { members := first ++ rest, positive := !negated,
           ignoreCase := flags.ignoreCase, ascii := flags.ascii }

end Pegboard.Regex
