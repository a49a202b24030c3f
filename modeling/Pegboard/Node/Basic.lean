import Pegboard.Expr.Basic

/-!
# Parse trees

A node is one match of an expression: the span of the text that it matched, and
the nodes of the members that made it up.  It carries the name and the kind of its
expression, and the number of the expression it came from.

Two nodes are alike when they have the same text, name and kind and their children
are alike.  Where a match stood in its text and which expression made it do not
matter.
-/

namespace Pegboard

/-- A match of an expression. -/
structure Node where
  /-- The expression that matched. -/
  origin : ExprId
  /-- Its kind. -/
  kind : Kind
  /-- Its name. -/
  name : Text
  /-- The whole text that was matched against. -/
  fullText : Text
  /-- Where the match begins. -/
  start : Int
  /-- Where the match ends. -/
  stop : Int
  /-- The matches of its members. -/
  children : List Node

namespace Node

/-- The text of a match. -/
def text (n : Node) : Text := n.fullText.slice n.start n.stop

/-- A child by its index, which a negative one counts back from the last. -/
def child? (n : Node) (index : Int) : Option Node :=
  if index < 0 then
    if 0 ≤ n.children.length + index then n.children[(n.children.length + index).toNat]? else none
  else n.children[index.toNat]?

mutual

/-- Whether two nodes are alike. -/
def same : Node → Node → Bool
  | ⟨_, kind₁, name₁, full₁, start₁, stop₁, children₁⟩,
    ⟨_, kind₂, name₂, full₂, start₂, stop₂, children₂⟩ =>
    full₁.slice start₁ stop₁ == full₂.slice start₂ stop₂ && name₁ == name₂ && kind₁ == kind₂ &&
      sameAll children₁ children₂

/-- Whether two lists of nodes are alike, node by node. -/
def sameAll : List Node → List Node → Bool
  | [], [] => true
  | n₁ :: rest₁, n₂ :: rest₂ => n₁.same n₂ && sameAll rest₁ rest₂
  | _, _ => false

end

/-- What a hash of a node goes by. -/
def hashKey (n : Node) : Text × Kind × Text × Nat := (n.name, n.kind, n.text, n.children.length)

/-- Whether a relation holds between two matches.  Two that do not exist are related. -/
def bothOrNeither (related : Node → Node → Bool) : Option Node → Option Node → Bool
  | some a, some b => related a b
  | none, none => true
  | _, _ => false

mutual

/-- The tree with the matches of one expression renamed. -/
def relabel (e : ExprId) (name : Text) : Node → Node
  | ⟨origin, kind, old, full, start, stop, children⟩ =>
    ⟨origin, kind, if origin = e then name else old, full, start, stop, relabelAll e name children⟩

/-- The trees with the matches of one expression renamed. -/
def relabelAll (e : ExprId) (name : Text) : List Node → List Node
  | [] => []
  | n :: rest => n.relabel e name :: relabelAll e name rest

end

/-- A line of a tree in preorder. -/
structure Row where
  /-- How many ancestors the node has. -/
  depth : Nat
  /-- Its kind. -/
  kind : Kind
  /-- Its name. -/
  name : Text
  /-- Where it begins. -/
  start : Int
  /-- Where it ends. -/
  stop : Int
  deriving DecidableEq, Repr

mutual

/-- The nodes of a tree in preorder, the root at the given depth. -/
def rows (depth : Nat) : Node → List Row
  | ⟨_, kind, name, _, start, stop, children⟩ =>
    ⟨depth, kind, name, start, stop⟩ :: rowsAll (depth + 1) children

/-- The nodes of trees in preorder, the roots at the given depth. -/
def rowsAll (depth : Nat) : List Node → List Row
  | [] => []
  | n :: rest => n.rows depth ++ rowsAll depth rest

end

end Node

end Pegboard
