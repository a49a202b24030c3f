import Pegboard.Expr.Freeze
import Pegboard.Expr.Link

/-!
# Edits of a store

An edit is one request to a store of expressions: to make an expression, to insert
a member, to rename, to attach a reference, to freeze or to link.  An edit may fail,
and the edits after it go on from the store that it left.

References that are still to be linked are kept in a worklist beside their store.
-/

namespace Pegboard

/-- A request to a store. -/
inductive Edit where
  /-- Make a literal. -/
  | literal (name text : Text)
  /-- Make an expression of a pattern, given by its source and flags. -/
  | regex (name source flags : Text)
  /-- Make a sequence or choice. -/
  | compound (name : Text) (order : Order) (members : List ExprId)
  /-- Make an expression that wraps a member. -/
  | unary (name : Text) (wrap : Wrap) (member : ExprId)
  /-- Make a reference. -/
  | reference (name target : Text)
  /-- Make an expression of no known form. -/
  | unknown (name : Text)
  /-- Insert a member. -/
  | insert (e : ExprId) (index : Int) (member : ExprId)
  /-- Name an expression. -/
  | rename (e : ExprId) (name : Text)
  /-- Attach a reference. -/
  | attach (e : ExprId) (place : Place)
  /-- Freeze what can be reached. -/
  | freeze (roots : List ExprId)
  /-- Replace references by rules. -/
  | link (rules : Rules) (pending : List ExprId)

namespace Edit

variable [Platform]

/-- Performs an edit, and gives the expression that it made, if it made one. -/
def perform : Edit → Build (Option ExprId)
  | literal name text => some <$> Build.literal name text
  | regex name source flags =>
    match Regex.Pattern.ofWritten source flags with
    | .ok pattern => some <$> Build.regex name pattern
    | .error e => throw e
  | compound name order members => some <$> Build.compound name order members
  | unary name wrap member => some <$> Build.unary name wrap member
  | reference name target => some <$> Build.reference name target
  | unknown name => some <$> Build.unknown name
  | insert e index member => (fun _ => none) <$> Build.insert e index member
  | rename e name => (fun _ => none) <$> Build.rename e name
  | attach e place => (fun _ => none) <$> Build.attach e place
  | freeze roots => (fun _ => none) <$> Build.freeze roots
  | link rules pending => (fun _ => none) <$> Build.link rules pending

/-- The store after an edit, failed or not. -/
def after (edit : Edit) (store : Store) : Store := (edit.perform.runOn store).2

/-- The store after edits. -/
def afterAll (edits : List Edit) (store : Store) : Store :=
  edits.foldl (fun store edit => edit.after store) store

end Edit

/-- A store and the references in it that wait for their rules. -/
structure Worklist where
  /-- The expressions. -/
  store : Store
  /-- The references, in the order in which they are to be replaced. -/
  pending : List ExprId

/-- Replaces the references of a worklist by the rules they name.  None waits after that; if it
fails, all of them still do. -/
def Worklist.link (rules : Rules) (work : Worklist) : Except Error Unit × Worklist :=
  match (Build.link rules work.pending).runOn work.store with
  | (.ok _, store) => (.ok (), ⟨store, []⟩)
  | (.error e, store) => (.error e, ⟨store, work.pending⟩)

end Pegboard
