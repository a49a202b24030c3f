import Pegboard.Node.Basic
import Pegboard.Text.Quoted

/-!
# Trees for a reader

A tree is shown in two ways.  The listing has a line for each node in preorder,
indented by four blanks for each ancestor, with the kind of the node, its name if
it has one, and its text in quotes.  The summary is one line for the root alone.
-/

namespace Pegboard.Node

/-- The line of a node in a listing. -/
def line (depth : Nat) (kind : Kind) (name text : Text) : Text :=
  List.replicate (4 * depth) (Codepoint.char ' ') ++ .char '<' :: kind.label ++
    (if name.isEmpty then [] else " called \"".toText ++ name ++ [.char '"']) ++
    " matching ".toText ++ text.quoted ++ [.char '>']

mutual

/-- The lines of a tree, the root at the given depth. -/
def lines (depth : Nat) : Node → List Text
  | ⟨_, kind, name, full, start, stop, children⟩ =>
    line depth kind name (full.slice start stop) :: linesAll (depth + 1) children

/-- The lines of trees, the roots at the given depth. -/
def linesAll (depth : Nat) : List Node → List Text
  | [] => []
  | n :: rest => n.lines depth ++ linesAll depth rest

end

/-- A tree with one line for each node. -/
def listing (n : Node) : Text := Text.join ['\n'] (n.lines 0)

/-- A node in one line. -/
def summary (n : Node) : Text :=
  "Node(".toText ++ n.kind.label ++ ", ".toText ++ n.name.quoted ++ ", ".toText ++
    Text.ofInt n.start ++ ", ".toText ++ Text.ofInt n.stop ++ ", children=".toText ++
    Text.ofNat n.children.length ++ [.char ')']

example : listing ⟨0, .literal, "a".toText, "xy".toText, 0, 1, []⟩ =
    "<literal called \"a\" matching 'x'>".toText := by decide

end Pegboard.Node
