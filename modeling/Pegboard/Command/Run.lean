import Pegboard.Command.Args
import Pegboard.Grammar.Meta
import Pegboard.Grammar.Render
import Pegboard.Node.Listing
import Pegboard.Node.Outline
import Pegboard.Text.Utf8

/-!
# Running a command

A command reads files, compiles a grammar and matches a text.  Running it is a pure
function of what the files hold: it gives what is printed and the exit code.  The
code is 0 if all went well, 1 if nothing matched and 2 if something was wrong.

Errors in a definition, missing rules and files that cannot be opened are reported.
Any other error ends the run as it is, and what was printed before stays printed.
Among these are the names that no file can have: they are turned down before any file
is looked for.

The path of a grammar is cleaned before it is opened, and the path of an input is opened
as it is.
-/

namespace Pegboard

namespace Command

/-- What is found under a path. -/
inductive File where
  /-- Nothing that can be opened, for a reason in the words of the operating system. -/
  | refused (reason : Text)
  /-- A file of bytes. -/
  | bytes (content : List Nat)
  deriving DecidableEq, Repr

namespace File

/-- Nothing. -/
def missing : File := refused "FileNotFoundError [Errno 2] No such file or directory".toText

/-- A directory. -/
def directory : File := refused "IsADirectoryError [Errno 21] Is a directory".toText

/-- Something under a path that goes on behind a file. -/
def notDirectory : File := refused "NotADirectoryError [Errno 20] Not a directory".toText

end File

/-- What a run prints and how it ends. -/
structure Report where
  /-- The standard output. -/
  out : Text
  /-- The standard error output. -/
  err : Text
  /-- The exit code, or the error that ended the run. -/
  exit : Except Error Nat

/-- A run in progress: what is printed so far. -/
structure Printed where
  /-- The standard output. -/
  out : Text := []
  /-- The standard error output. -/
  err : Text := []

namespace Printed

/-- Prints a line on the standard error output. -/
def note (p : Printed) (line : Text) : Printed := { p with err := p.err ++ line ++ [.char '\n'] }

/-- Prints a line on the standard error output if progress is to be reported. -/
def debug (p : Printed) (on : Bool) (line : Text) : Printed := if on then p.note line else p

/-- Prints a line on the standard output. -/
def say (p : Printed) (line : Text) : Printed := { p with out := p.out ++ line ++ [.char '\n'] }

/-- Ends the run with an exit code. -/
def exit (p : Printed) (code : Nat) : Report := ⟨p.out, p.err, .ok code⟩

/-- Ends the run with an error. -/
def fail (p : Printed) (e : Error) : Report := ⟨p.out, p.err, .error e⟩

end Printed

/-- Whether a code point has a form in file names.  A surrogate has one if it is the
stand-in for a byte that is no part of a character, which is one of U+DC80 to U+DCFF. -/
def inFileNames : Codepoint → Bool
  | .char _ => true
  | .surrogate index => 0x480 ≤ index.val && index.val < 0x500

/-- Looks for the file of a name.  No file has the empty name. -/
def findFile (files : Text → File) (name : Text) : Except Error File :=
  if !name.all inFileNames then .error .unencodableName
  else if name.contains (.char '\x00') then .error .nullInName
  else .ok (if name.isEmpty then .missing else files name)

/-- The text of a file, with every line end as one line feed. -/
def fileText (content : List Nat) : Except Error Text :=
  match Text.ofUtf8? content with
  | some text => .ok text.unixLines
  | none => .error .notUtf8

/-- The parts of a path between slashes. -/
def pathParts (path : Text) : List Text :=
  match path with
  | [] => [[]]
  | c :: rest =>
    match pathParts rest with
    | [] => [[c]]
    | part :: parts => if c = '/' then [] :: part :: parts else (c :: part) :: parts

/-- The slashes that a clean path starts with: one, or two if the path starts with just
two. -/
def rootSlashes : Text → Text
  | .char '/' :: .char '/' :: rest =>
    if rest.head? = some (.char '/') then "/".toText else "//".toText
  | .char '/' :: _ => "/".toText
  | _ => []

/-- A path without empty parts and single points; nothing left is a point. -/
def normalPath (path : Text) : Text :=
  let parts := (pathParts path).filter fun part => !part.isEmpty && part != [.char '.']
  match rootSlashes path ++ Text.join [.char '/'] parts with
  | [] => [.char '.']
  | clean => clean

/-- Goes on with what a definition was compiled to.  A definition that is wrong ends the run
with code 2. -/
def withCompiled (p : Printed) (debug : Bool) (next : Printed → Grammar → Report) :
    Except Error Grammar → Report
  | .ok g =>
    next (p.debug debug
      ("[DEBUG] compiled | rules=".toText ++ Text.ofNat g.table.rules.length ++
        " default=".toText ++ g.table.start)) g
  | .error e =>
    if e.isDefinition then ((p.note "[SYNTAX ERROR]".toText).note e.message).exit 2
    else p.fail e

/-- Opens the file of a name and goes on with its text.  A file that cannot be opened ends the
run with code 2. -/
def withText (p : Printed) (files : Text → File) (name : Text) (next : Text → Report) : Report :=
  match findFile files name with
  | .error e => p.fail e
  | .ok (.refused reason) =>
    (p.note ("[ERROR] ".toText ++ reason ++ ": ".toText ++ name.quoted)).exit 2
  | .ok (.bytes content) =>
    match fileText content with
    | .ok text => next text
    | .error e => p.fail e

/-- The line that says that a grammar is in order. -/
def checkLine (g : Grammar) : Text :=
  "[CHECK OK] rules=".toText ++ Text.ofNat g.table.rules.length ++ " default=".toText ++
    g.table.start

/-- What is printed of a node. -/
def nodeText (outline : Bool) (n : Node) : Text :=
  if outline then
    match n.outline? with
    | some o => o.printed
    | none => "<anonymous ".toText ++ n.kind.label ++ [.char '>']
  else n.listing

section

variable [Platform] (depth : Nat)

/-- Reads a grammar file and compiles it, then goes on. -/
def withGrammar (files : Text → File) (path : Text) (debug : Bool)
    (next : Printed → Grammar → Report) : Report :=
  let p : Printed := {}
  withText p files (normalPath path) fun source =>
    withCompiled
      (p.debug debug
        ("[DEBUG] read ".toText ++ path ++ " | chars=".toText ++ Text.ofNat source.length))
      debug next (Grammar.compileTo depth source none)

/-- Runs `check`. -/
def runCheck (files : Text → File) (path : Text) (debug : Bool) : Report :=
  withGrammar depth files path debug fun p g =>
    if debug then
      match g.renderTo depth with
      | .ok text => ((p.note ("\n[GRAMMAR]\n".toText ++ text)).say (checkLine g)).exit 0
      | .error e => p.fail e
    else (p.say (checkLine g)).exit 0

/-- Matches a text and prints the node. -/
def runMatch (p : Printed) (g : Grammar) (r : Request) (text : Text) : Report :=
  match g.parseTo depth text r.rule 0 with
  | .error (.unknownRule name) =>
    (p.note ("[ERROR] ".toText ++ (Error.unknownRule name).message)).exit 2
  | .error e => p.fail e
  | .ok found =>
    let rule := match r.rule with
      | some name => if name.isEmpty then g.table.start else name
      | none => g.table.start
    match found with
    | none => (p.note ("[NO MATCH] rule=".toText ++ rule)).exit 1
    | some n =>
      if r.full && n.stop != text.length then
        (p.note ("[NO MATCH] rule=".toText ++ rule ++ " stopped at ".toText ++ Text.ofInt n.stop ++
          " of ".toText ++ Text.ofNat text.length)).exit 1
      else
        let p := p.debug r.debug
          ("[DEBUG] matched | rule=".toText ++ rule ++ " span=".toText ++ Text.ofInt n.start ++
            "..".toText ++ Text.ofInt n.stop)
        (p.say (nodeText r.outline n)).exit 0

/-- Runs `parse`. -/
def runParse (files : Text → File) (path : Text) (r : Request) : Report :=
  withGrammar depth files path r.debug fun p g =>
    match r.text with
    | some text => runMatch depth p g r text
    | none => withText p files (r.input.getD []) (runMatch depth p g r)

/-- Runs a command.  Nothing in the run goes deeper than the depth. -/
def runTo (files : Text → File) : Command → Report
  | .check path debug => runCheck depth files path debug
  | .parse path request => runParse depth files path request

end

/-- Runs a command. -/
def run [Platform] (files : Text → File) (c : Command) : Report := c.runTo Store.depthLimit files

/-- The names of the files that a command may open. -/
def paths : Command → List Text
  | .check path _ => [normalPath path]
  | .parse path r => normalPath path :: r.input.toList

end Command

end Pegboard
