import Pegboard.Expr.Edit
import Pegboard.Grammar.Render
import Pegboard.Node.Outline

/-!
# The workbench

A workbench is for putting expressions together by hand.  It keeps expressions,
nodes and rule tables under handles, each kind with handles of its own.  A step
makes or changes something on the bench, or asks something about it.  A step that
fails leaves the bench as far as it came, and the next step goes on from there.

Nodes carry the names of their expressions.  So renaming an expression renames its
nodes on the bench too.
-/

namespace Pegboard

/-- A step on a workbench.  Expressions, nodes and tables are given by handles. -/
inductive Step where
  /-- Make a literal. -/
  | literal (handle name text : Text)
  /-- Make an expression of a pattern. -/
  | regex (handle name source flags : Text)
  /-- Make a sequence or choice. -/
  | compound (handle name : Text) (order : Order) (members : List Text)
  /-- Make an expression that wraps a member. -/
  | unary (handle name : Text) (wrap : Wrap) (member : Text)
  /-- Make a reference. -/
  | reference (handle name target : Text)
  /-- Make an expression of no known form. -/
  | unknown (handle name : Text)
  /-- Insert a member. -/
  | insert (handle : Text) (index : Int) (member : Text)
  /-- Name an expression. -/
  | rename (handle name : Text)
  /-- Freeze what can be reached. -/
  | freeze (handles : List Text)
  /-- List what can be reached. -/
  | list (handles : List Text)
  /-- Attach a reference. -/
  | attach (handle parent : Text) (slot : Option Int)
  /-- Ask whether two handles are for one expression. -/
  | identical (a b : Text)
  /-- Render an expression as a rule. -/
  | rule (handle : Text)
  /-- Render the right-hand side of an expression. -/
  | rhs (handle : Text)
  /-- Replace references by rules. -/
  | link (pending : List Text) (rules : List (Text × Text))
  /-- Match an expression, and keep the node under a handle if one is given. -/
  | parse (handle text : Text) (pos : Int) (keep : Option Text)
  /-- Make a node. -/
  | node (handle text : Text) (start stop : Int) (children : List Text) (keep : Text)
  /-- Take a child of a node. -/
  | child (node : Text) (index : Int) (keep : Text)
  /-- Take a node. -/
  | peek (node : Text)
  /-- Ask whether two nodes are alike. -/
  | alike (a b : Text)
  /-- Ask whether two nodes have the same hash key. -/
  | hashAlike (a b : Text)
  /-- Ask whether two nodes have equal outlines. -/
  | outlineAlike (a b : Text)
  /-- Ask whether a node equals something that is none. -/
  | notNode (node : Text)
  /-- Make a rule table. -/
  | table (handle : Text) (rules : List (Text × Text)) (start : Option Text)
  /-- Render a table as a definition text. -/
  | tableText (handle : Text)
  /-- Match a rule of a table. -/
  | tableParse (handle text : Text) (rule : Option Text) (pos : Int)

/-- The answer to a step. -/
inductive Answer where
  /-- Expressions in the order of their listing. -/
  | listing (cells : List (Cell × List Nat))
  /-- Yes or no. -/
  | flag (value : Bool)
  /-- A text. -/
  | text (value : Text)
  /-- A number. -/
  | count (value : Nat)
  /-- A node, or no match. -/
  | node (value : Option Node)

/-- What lies on a workbench. -/
structure Workbench where
  /-- The expressions. -/
  store : Store := #[]
  /-- The handles of expressions, latest first. -/
  exprs : List (Text × ExprId) := []
  /-- The handles of nodes, latest first. -/
  nodes : List (Text × Option Node) := []
  /-- The handles of tables, latest first. -/
  tables : List (Text × RuleTable) := []

namespace Workbench

/-- The expression of a handle. -/
def expr (w : Workbench) (handle : Text) : Except Error ExprId :=
  match w.exprs.lookup handle with
  | some e => .ok e
  | none => .error (.unknownHandle handle)

/-- The node of a handle. -/
def node (w : Workbench) (handle : Text) : Except Error (Option Node) :=
  match w.nodes.lookup handle with
  | some n => .ok n
  | none => .error (.unknownHandle handle)

/-- The table of a handle. -/
def table (w : Workbench) (handle : Text) : Except Error RuleTable :=
  match w.tables.lookup handle with
  | some t => .ok t
  | none => .error (.unknownHandle handle)

/-- The expressions of handles. -/
def exprList (w : Workbench) (handles : List Text) : Except Error (List ExprId) :=
  handles.mapM w.expr

/-- The rules of names with handles. -/
def ruleList (w : Workbench) (rules : List (Text × Text)) : Except Error Rules := do
  let pairs ← rules.mapM fun (name, handle) => do return (name, ← w.expr handle)
  return Rules.ofPairs pairs

/-- The bench with a node under a handle. -/
def keepNode (w : Workbench) (keep : Option Text) (n : Option Node) : Workbench :=
  match keep with
  | some handle => { w with nodes := (handle, n) :: w.nodes }
  | none => w

variable [Platform]

/-- Performs an edit that makes an expression.  If it fails, the handle stays as it
was. -/
def make (w : Workbench) (handle : Text) (edit : Edit) : Except Error Answer × Workbench :=
  match edit.perform.runOn w.store with
  | (.error e, store) => (.error e, { w with store })
  | (.ok none, store) => (.ok (.flag true), { w with store })
  | (.ok (some e), store) =>
    (.ok (.listing (Store.listing store [e])), { w with store, exprs := (handle, e) :: w.exprs })

/-- Performs an edit that makes no expression. -/
def edit (w : Workbench) (edit : Edit) (answer : Answer) : Except Error Answer × Workbench :=
  match edit.perform.runOn w.store with
  | (.error e, store) => (.error e, { w with store })
  | (.ok _, store) => (.ok answer, { w with store })

/-- Replaces references by rules, and answers how many still wait for theirs. -/
def link (w : Workbench) (rules : Rules) (pending : List ExprId) : Except Error Answer × Workbench :=
  match (Worklist.mk w.store pending).link rules with
  | (.ok _, work) => (.ok (.count work.pending.length), { w with store := work.store })
  | (.error e, work) => (.error e, { w with store := work.store })

/-- Continues with a value, or stops with its error. -/
def given {α : Type} (w : Workbench) (value : Except Error α)
    (next : α → Except Error Answer × Workbench) : Except Error Answer × Workbench :=
  match value with
  | .ok a => next a
  | .error e => (.error e, w)

/-- The answer of a question, which leaves the bench as it is. -/
def answer (w : Workbench) (value : Except Error Answer) : Except Error Answer × Workbench :=
  (value, w)

/-- Performs a step. -/
def perform (w : Workbench) : Step → Except Error Answer × Workbench
  | .literal handle name text => w.make handle (.literal name text)
  | .regex handle name source flags => w.make handle (.regex name source flags)
  | .compound handle name order members =>
    w.given (w.exprList members) fun members => w.make handle (.compound name order members)
  | .unary handle name wrap member =>
    w.given (w.expr member) fun member => w.make handle (.unary name wrap member)
  | .reference handle name target => w.make handle (.reference name target)
  | .unknown handle name => w.make handle (.unknown name)
  | .insert handle index member =>
    w.given (w.expr handle) fun e => w.given (w.expr member) fun member =>
      w.edit (.insert e index member) (.flag true)
  | .rename handle name =>
    w.given (w.expr handle) fun e =>
      let (result, w) := w.edit (.rename e name) (.flag true)
      (result, { w with nodes := w.nodes.map fun (h, n) => (h, n.map (·.relabel e name)) })
  | .freeze handles => w.given (w.exprList handles) fun roots => w.edit (.freeze roots) (.flag true)
  | .list handles =>
    w.answer do return .listing (Store.listing w.store (← w.exprList handles))
  | .attach handle parent slot =>
    w.given (w.expr handle) fun e => w.given (w.expr parent) fun parent =>
      w.edit (.attach e ⟨parent, slot⟩) (.flag true)
  | .identical a b => w.answer do return .flag ((← w.expr a) == (← w.expr b))
  | .rule handle => w.answer do return .text (← w.store.renderRule (← w.expr handle))
  | .rhs handle => w.answer do return .text (← w.store.renderRhs (← w.expr handle))
  | .link pending rules =>
    w.given (w.exprList pending) fun pending => w.given (w.ruleList rules) fun rules =>
      w.link rules pending
  | .parse handle text pos keep =>
    w.given (w.expr handle) fun e => w.given (w.store.matchExpr e text pos) fun n =>
      (.ok (.node n), w.keepNode keep n)
  | .node handle text start stop children keep =>
    w.given (w.expr handle) fun e => w.given (children.mapM w.node) fun children =>
      let n : Option Node := (w.store[e]?).map fun cell =>
        ⟨e, cell.kind, cell.name, text, start, stop, children.filterMap id⟩
      (.ok (.node n), w.keepNode (some keep) n)
  | .child handle index keep =>
    w.given (w.node handle) fun n =>
      match n.bind (·.child? index) with
      | some child => (.ok (.node (some child)), w.keepNode (some keep) (some child))
      | none => (.error .missingChild, w)
  | .peek handle => w.answer do return .node (← w.node handle)
  | .alike a b => w.answer do return .flag (Node.bothOrNeither Node.same (← w.node a) (← w.node b))
  | .hashAlike a b =>
    w.answer do
      return .flag (Node.bothOrNeither (fun m n => m.hashKey == n.hashKey) (← w.node a) (← w.node b))
  | .outlineAlike a b => w.answer do return .flag (Node.bothOrNeither Node.sameOutline (← w.node a) (← w.node b))
  | .notNode handle => w.answer do
      let _ ← w.node handle
      return .flag false
  | .table handle rules start =>
    w.given (w.ruleList rules) fun rules => w.given (RuleTable.ofRules rules start) fun t =>
      (.ok (.text t.summary), { w with tables := (handle, t) :: w.tables })
  | .tableText handle =>
    w.answer do return .text (← Grammar.render ⟨w.store, ← w.table handle⟩)
  | .tableParse handle text rule pos =>
    w.answer do return .node (← Grammar.parse ⟨w.store, ← w.table handle⟩ text rule pos)

/-- The answers to steps from a bench. -/
def runFrom (w : Workbench) : List Step → List (Except Error Answer)
  | [] => []
  | step :: rest =>
    match w.perform step with
    | (answer, w) => answer :: runFrom w rest

/-- The answers to steps from an empty bench. -/
def run (steps : List Step) : List (Except Error Answer) := runFrom {} steps

end Workbench

end Pegboard
