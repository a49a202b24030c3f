import Pegboard.Text.Basic
import Pegboard.Codepoint.Word

/-!
# The arguments of the command line

There are two commands.  `check` takes a grammar file.  `parse` takes a grammar file
and either a text or the path of an input file, and may name a rule.  Options and
the file may come in any order.

A long option may be cut short as long as it stays clear, and takes its value after
an equals sign or as the next argument.  A short option takes its value right after
its letter or as the next argument, and short options without values may share a
hyphen.  After a double hyphen everything is a plain argument.  An argument that
starts with a hyphen is still plain if it is a lone hyphen, a negative number, or no
option and holds a blank.
-/

namespace Pegboard

namespace Command

/-- The options. -/
inductive Flag where
  | help
  | debug
  | rule
  | text
  | input
  | outline
  | full
  deriving DecidableEq, Repr

/-- Whether an option takes a value. -/
def Flag.takesValue : Flag → Bool
  | rule | text | input => true
  | help | debug | outline | full => false

/-- The spellings of options. -/
abbrev Spellings := List (Text × Flag)

/-- The options before the command. -/
def outerOptions : Spellings := [("-h".toText, .help), ("--help".toText, .help)]

/-- The options of `check`. -/
def checkOptions : Spellings :=
  outerOptions ++ [("-D".toText, .debug), ("--debug".toText, .debug)]

/-- The options of `parse`. -/
def parseOptions : Spellings :=
  outerOptions ++
    [("-r".toText, .rule), ("--rule".toText, .rule), ("--text".toText, .text),
     ("--input".toText, .input), ("--simplify".toText, .outline), ("--full".toText, .full),
     ("-D".toText, .debug), ("--debug".toText, .debug)]

/-! ## Reading one argument -/

/-- What an argument is. -/
inductive Word where
  /-- A plain argument. -/
  | plain
  /-- An option by a long spelling, and the value after its equals sign. -/
  | long (flag : Flag) (value : Option Text)
  /-- An option by a short spelling, and what is written right after its letter. -/
  | short (flag : Flag) (rest : Text)
  /-- An option that does not exist. -/
  | stray
  /-- A cut option that could be several. -/
  | unclear
  deriving DecidableEq, Repr

/-- What stands before and after the first equals sign, if there is one. -/
def splitEquals (arg : Text) : Text × Option Text :=
  match arg.dropWhile (· != Codepoint.char '=') with
  | [] => (arg, none)
  | _ :: value => (arg.takeWhile (· != Codepoint.char '='), some value)

/-- Whether a character is a decimal digit of any script. -/
def isDecimalDigit (c : Codepoint) : Bool := Codepoint.isDigit c.toNat

/-- Whether there are digits and nothing behind them but maybe one line feed. -/
def isDecimal (text : Text) : Bool :=
  match text.dropWhile isDecimalDigit with
  | [] | [.char '\n'] => text.head?.any isDecimalDigit
  | _ => false

/-- Whether an argument is a negative number: digits, or a point with digits after
it and maybe before it. -/
def isNegativeNumber : Text → Bool
  | .char '-' :: number =>
    isDecimal number ||
      match number.dropWhile isDecimalDigit with
      | .char '.' :: rest => isDecimal rest
      | _ => false
  | _ => false

/-- What an argument with a hyphen is that spells no option. -/
def strayWord (arg : Text) : Word :=
  if isNegativeNumber arg || arg.contains ' ' then .plain else .stray

/-- What an argument with two hyphens is.  A whole spelling comes before a cut one. -/
def longWord (options : Spellings) (arg : Text) : Word :=
  match splitEquals arg with
  | (stem, value) =>
    match options.lookup stem with
    | some flag => .long flag value
    | none =>
      match options.filter fun (spelling, _) => stem.isPrefixOf spelling with
      | [(_, flag)] => .long flag value
      | [] => strayWord arg
      | _ => .unclear

/-- What an argument is, given the options. -/
def classify (options : Spellings) (arg : Text) : Word :=
  match arg with
  | .char '-' :: .char '-' :: _ => longWord options arg
  | .char '-' :: letter :: rest =>
    match options.lookup [Codepoint.char '-', letter] with
    | some flag => .short flag rest
    | none => strayWord arg
  | _ => .plain

/-! ## Reading the arguments of a command -/

/-- What the arguments of a command say. -/
structure Request where
  /-- The grammar file. -/
  file : Option Text := none
  /-- The rule. -/
  rule : Option Text := none
  /-- The text. -/
  text : Option Text := none
  /-- The input file. -/
  input : Option Text := none
  /-- Whether to print the outline. -/
  outline : Bool := false
  /-- Whether all of the text has to match. -/
  full : Bool := false
  /-- Whether to report progress. -/
  debug : Bool := false
  /-- Whether there is an argument too many. -/
  excess : Bool := false
  deriving DecidableEq, Repr

/-- Why the arguments of a command make no request. -/
inductive Refusal where
  /-- They ask for help. -/
  | help
  /-- They are wrong. -/
  | wrong
  deriving DecidableEq, Repr

/-- The request with an option that takes no value. -/
def Request.switch (r : Request) : Flag → Except Refusal Request
  | .help => .error .help
  | .debug => .ok { r with debug := true }
  | .outline => .ok { r with outline := true }
  | .full => .ok { r with full := true }
  | .rule | .text | .input => .error .wrong

/-- The request with options that take no values, in order. -/
def Request.switches (r : Request) (flags : List Flag) : Except Refusal Request :=
  flags.foldlM Request.switch r

/-- The request with an option and its value.  A text and an input file exclude each
other. -/
def Request.assign (r : Request) (value : Text) : Flag → Except Refusal Request
  | .rule => .ok { r with rule := some value }
  | .text => if r.input.isSome then .error .wrong else .ok { r with text := some value }
  | .input => if r.text.isSome then .error .wrong else .ok { r with input := some value }
  | .help | .debug | .outline | .full => .error .wrong

/-- The request with a plain argument. -/
def Request.plain (r : Request) (arg : Text) : Request :=
  if r.file.isNone then { r with file := some arg } else { r with excess := true }

/-- A request after an option, and the option if it still waits for its value. -/
abbrev Progress := Request × Option Flag

/-- Reads an option by a long spelling. -/
def readLong (r : Request) (flag : Flag) : Option Text → Except Refusal Progress
  | none => if flag.takesValue then .ok (r, some flag) else (r.switch flag).map (·, none)
  | some value => (r.assign value flag).map (·, none)

/-- Reads short options that share a hyphen.  The text is what is written after the
letter of `flag`, and `before` are the options before it, which take effect only if
the others are in order.  A letter that is no option is too much. -/
def readShort (options : Spellings) (r : Request) (before : List Flag) (flag : Flag) :
    Text → Except Refusal Progress
  | [] =>
    if flag.takesValue then (r.switches before).map (·, some flag)
    else (r.switches (before ++ [flag])).map (·, none)
  | c :: rest =>
    if c = '=' || flag.takesValue then
      let value := if c = '=' then rest else c :: rest
      if flag.takesValue then
        ((r.switches before).bind fun r => r.assign value flag).map (·, none)
      else .error .wrong
    else if c = '-' then .error .wrong
    else
      match options.lookup [Codepoint.char '-', c] with
      | some next => readShort options r (before ++ [flag]) next rest
      | none => (r.switches (before ++ [flag])).map ({ · with excess := true }, none)

/-- Where the reading of arguments stands. -/
inductive Mood where
  /-- Between arguments; the flag says whether the file came last. -/
  | ready (afterFile : Bool)
  /-- An option waits for its value. -/
  | waiting (flag : Flag)
  /-- Everything is a plain argument. -/
  | plainOnly
  deriving DecidableEq, Repr

/-- The double hyphen, after which there are no options. -/
def optionsEnd : Text := "--".toText

/-- How reading goes on after an option. -/
def moodAfter : Option Flag → Mood
  | some flag => .waiting flag
  | none => .ready false

/-- Reads arguments. -/
def readArgs (options : Spellings) : Mood → Request → List Text → Except Refusal Request
  | .waiting _, _, [] => .error .wrong
  | _, r, [] => .ok r
  | .plainOnly, r, arg :: rest => readArgs options .plainOnly (r.plain arg) rest
  | .waiting flag, r, arg :: rest =>
    if arg = optionsEnd || classify options arg != .plain then .error .wrong
    else
      match r.assign arg flag with
      | .ok r => readArgs options (.ready false) r rest
      | .error e => .error e
  | .ready afterFile, r, arg :: rest =>
    if arg = optionsEnd then
      -- The mark goes with the file before or after it.
      readArgs options .plainOnly { r with excess := r.excess || (r.file.isSome && !afterFile) } rest
    else
      match classify options arg with
      | .plain => readArgs options (.ready r.file.isNone) (r.plain arg) rest
      | .stray => readArgs options (.ready false) { r with excess := true } rest
      | .unclear => .error .wrong
      | .long flag value =>
        match readLong r flag value with
        | .ok (r, waiting) => readArgs options (moodAfter waiting) r rest
        | .error e => .error e
      | .short flag text =>
        match readShort options r [] flag text with
        | .ok (r, waiting) => readArgs options (moodAfter waiting) r rest
        | .error e => .error e

/-- Whether an argument before a double hyphen could be several options.  That is
found out before anything else. -/
def anyUnclear (options : Spellings) (args : List Text) : Bool :=
  (args.takeWhile (· != optionsEnd)).any fun arg => classify options arg == .unclear

/-! ## Commands -/

end Command

/-- What a command line asks for. -/
inductive Command where
  /-- Compile a grammar. -/
  | check (file : Text) (debug : Bool)
  /-- Match a text. -/
  | parse (file : Text) (request : Command.Request)
  deriving DecidableEq, Repr

namespace Command

/-- The command of a request, which has to have its file and nothing too much. -/
def checkCommand (r : Request) : Except Refusal Command :=
  match r.file with
  | some file => if r.excess then .error .wrong else .ok (.check file r.debug)
  | none => .error .wrong

/-- The command of a request, which has to have a text or an input file as well. -/
def parseCommand (r : Request) : Except Refusal Command :=
  match r.file with
  | some file =>
    if r.excess || (r.text.isNone && r.input.isNone) then .error .wrong else .ok (.parse file r)
  | none => .error .wrong

/-- Reads the arguments after the word of a command. -/
def readCommand (word : Text) (args : List Text) : Except Refusal Command :=
  if word = "check".toText then
    if anyUnclear checkOptions args then .error .wrong
    else (readArgs checkOptions (.ready false) {} args).bind checkCommand
  else if word = "parse".toText then
    if anyUnclear parseOptions args then .error .wrong
    else (readArgs parseOptions (.ready false) {} args).bind parseCommand
  else .error .wrong

/-- The outcome of a command line with something too much before the command. -/
def excess : Except Refusal Command → Except Refusal Command
  | .error .help => .error .help
  | _ => .error .wrong

/-- Reads a command line.  The command is its first plain argument.  An option before
it can only ask for help. -/
def ofArgs : List Text → Except Refusal Command
  | [] => .error .wrong
  | arg :: rest =>
    if arg = optionsEnd then .error .wrong
    else
      match classify outerOptions arg with
      | .plain => readCommand arg rest
      | .unclear => .error .wrong
      | .stray => excess (ofArgs rest)
      | .long flag value =>
        match readLong {} flag value with
        | .ok _ => excess (ofArgs rest)
        | .error e => .error e
      | .short flag text =>
        match readShort outerOptions {} [] flag text with
        | .ok _ => excess (ofArgs rest)
        | .error e => .error e

example : (ofArgs (["check", "-D", "g"].map String.toText)).toOption =
    some (.check "g".toText true) := by decide

end Command

end Pegboard
