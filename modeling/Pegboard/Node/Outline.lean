import Pegboard.Node.Basic
import Pegboard.Text.Quoted

/-!
# Outlines

The outline of a tree keeps its named nodes only.  A node without a name hands its
children up to its nearest named ancestor.  A tree whose root has no name has no
outline.

An outline is printed with tags.  A leaf is a single tag.  The children of a node
stand on one line with it if that line fits, on a line of their own below it, or
each on lines of its own.  Inner lines are indented by two blanks.
-/

namespace Pegboard

/-- The named nodes of a tree. -/
structure Outline where
  /-- The name. -/
  name : Text
  /-- The whole text that was matched against. -/
  fullText : Text
  /-- Where the match begins. -/
  start : Int
  /-- Where the match ends. -/
  stop : Int
  /-- The nearest named nodes below. -/
  children : List Outline

mutual

/-- The outlines of a tree: its own if it is named, else those of its children. -/
def Node.outlines : Node → List Outline
  | ⟨_, _, name, full, start, stop, children⟩ =>
    if name.isEmpty then outlinesAll children
    else [⟨name, full, start, stop, outlinesAll children⟩]

/-- The outlines of trees, in order. -/
def Node.outlinesAll : List Node → List Outline
  | [] => []
  | n :: rest => n.outlines ++ outlinesAll rest

end

/-- The outline of a tree, if its root is named. -/
def Node.outline? (n : Node) : Option Outline := if n.name.isEmpty then none else n.outlines.head?

namespace Outline

/-- The text of a match. -/
def text (o : Outline) : Text := o.fullText.slice o.start o.stop

mutual

/-- Whether two outlines are equal in every field. -/
def same : Outline → Outline → Bool
  | ⟨name₁, full₁, start₁, stop₁, children₁⟩, ⟨name₂, full₂, start₂, stop₂, children₂⟩ =>
    name₁ == name₂ && full₁ == full₂ && start₁ == start₂ && stop₁ == stop₂ &&
      sameAll children₁ children₂

/-- Whether two lists of outlines are equal. -/
def sameAll : List Outline → List Outline → Bool
  | [], [] => true
  | o₁ :: rest₁, o₂ :: rest₂ => o₁.same o₂ && sameAll rest₁ rest₂
  | _, _ => false

end

end Outline

/-- Whether two trees have equal outlines; two without outlines are equal. -/
def Node.sameOutline (a b : Node) : Bool :=
  match a.outline?, b.outline? with
  | some o, some p => o.same p
  | none, none => true
  | _, _ => false

namespace Outline

/-- A line of an outline in preorder. -/
structure Row where
  /-- How many ancestors the node has. -/
  depth : Nat
  /-- Its name. -/
  name : Text
  /-- Where it begins. -/
  start : Int
  /-- Where it ends. -/
  stop : Int
  /-- Its text. -/
  text : Text
  deriving DecidableEq, Repr

mutual

/-- The nodes of an outline in preorder, the root at the given depth. -/
def rows (depth : Nat) : Outline → List Row
  | ⟨name, full, start, stop, children⟩ =>
    ⟨depth, name, start, stop, full.slice start stop⟩ :: rowsAll (depth + 1) children

/-- The nodes of outlines in preorder, the roots at the given depth. -/
def rowsAll (depth : Nat) : List Outline → List Row
  | [] => []
  | o :: rest => o.rows depth ++ rowsAll depth rest

end

/-! ## Printing -/

/-- The tag that opens an element. -/
def header (name : Text) : Text := .char '<' :: (name ++ [.char '>'])

/-- The tag that closes an element. -/
def footer (name : Text) : Text := .char '<' :: .char '/' :: (name ++ [.char '>'])

/-- The tag of an element without children. -/
def leaf (name : Text) : Text := .char '<' :: (name ++ [.char '\\', .char '>'])

/-- A text with every line feed replaced. -/
def breakAs (replacement : Text) (text : Text) : Text :=
  text.flatMap fun c : Codepoint => if c = '\n' then replacement else [c]

/-- What the tags and the children of a line stay below.  The two blanks between them are not
counted. -/
def width : Nat := 80

/-- An element with printed children, which are joined by line feeds. -/
def element (name children : Text) : Text :=
  if children.length < width then
    let flat := breakAs ", ".toText children
    if (header name).length + flat.length + (footer name).length < width then
      header name ++ .char ' ' :: flat ++ .char ' ' :: footer name
    else header name ++ "\n  ".toText ++ flat ++ .char '\n' :: footer name
  else header name ++ "\n  ".toText ++ breakAs "\n  ".toText children ++ .char '\n' :: footer name

mutual

/-- The printed form of an outline. -/
def printed : Outline → Text
  | ⟨name, _, _, _, children⟩ =>
    if children.isEmpty then leaf name else element name (Text.join ['\n'] (printedAll children))

/-- The printed forms of outlines. -/
def printedAll : List Outline → List Text
  | [] => []
  | o :: rest => o.printed :: printedAll rest

end

mutual

/-- An outline with the names of its fields. -/
def fields : Outline → Text
  | ⟨name, _, start, stop, children⟩ =>
    "SimplifiedNode(name=".toText ++ name.quoted ++ ", start=".toText ++ Text.ofInt start ++
      ", end=".toText ++ Text.ofInt stop ++ ", children=(".toText ++
      Text.join ", ".toText (fieldsAll children) ++ (if children.length = 1 then [.char ','] else []) ++
      "))".toText

/-- Outlines with the names of their fields. -/
def fieldsAll : List Outline → List Text
  | [] => []
  | o :: rest => o.fields :: fieldsAll rest

end

/-- An outline with the names of its fields, or the word for none. -/
def fieldsOrNone : Option Outline → Text
  | none => "None".toText
  | some o => o.fields

example : printed ⟨"a".toText, [], 0, 0, [⟨"b".toText, [], 0, 0, []⟩]⟩ =
    "<a> <b\\> </a>".toText := by decide

end Outline

end Pegboard
