import Pegboard.Expr.Basic

/-!
# Building a graph

A graph is built by steps on a store.  A step may fail, and what it has done by
then stays done: a new sequence whose second member cannot be attached has still
attached its first one.  So a step of type `Build` gives a result or an error,
and the store after it in both cases.

Making an expression attaches the references among its members, each to its slot.
A reference is attached once and for all.
-/

namespace Pegboard

/-- A step on a store: a result or an error, and the store after it. -/
abbrev Build := ExceptT Error (StateM Store)

namespace Build

/-- Runs a step from a store. -/
def runOn {α : Type} (step : Build α) (store : Store) : Except Error α × Store := step.run store

/-- One step after another: the second one runs only if the first one succeeds. -/
theorem runOn_bind {α β : Type} (step : Build α) (next : α → Build β) (store : Store) :
    (step >>= next).runOn store =
      match step.runOn store with
      | (.ok a, store) => (next a).runOn store
      | (.error e, store) => (.error e, store) := by
  change (match step.runOn store with | (r, s) => ExceptT.bindCont next r s) = _
  rcases step.runOn store with ⟨_ | _, _⟩ <;> rfl

/-- Adds an expression to the store. -/
def add (cell : Cell) : Build ExprId := do
  let store ← get
  set (store.push cell)
  return store.size

/-- Attaches an expression to a slot if it is a reference.  A reference that has a
parent already cannot be attached. -/
def attach (e : ExprId) (place : Place) : Build Unit := do
  let store ← get
  match store[e]? with
  | some ⟨name, .reference target none⟩ =>
    set (store.setIfInBounds e ⟨name, .reference target (some place)⟩)
  | some ⟨_, .reference target (some _)⟩ => throw (.attachedTwice target)
  | _ => return ()

/-- Attaches the references among the members of an expression to their slots, the
first of which has the given number. -/
def attachMembers (parent : ExprId) : (slot : Nat) → List ExprId → Build Unit
  | _, [] => return ()
  | slot, e :: rest => do
    attach e ⟨parent, some slot⟩
    attachMembers parent (slot + 1) rest

/-- Makes a literal. -/
def literal (name text : Text) : Build ExprId := add ⟨name, .literal text⟩

/-- Makes an expression of a pattern. -/
def regex (name : Text) (pattern : Regex.Pattern) : Build ExprId := add ⟨name, .regex pattern⟩

/-- Makes a sequence or choice of members. -/
def compound (name : Text) (order : Order) (members : List ExprId) : Build ExprId := do
  let e ← add ⟨name, .compound order members false⟩
  attachMembers e 0 members
  return e

/-- Makes an expression that wraps a member. -/
def unary (name : Text) (wrap : Wrap) (member : ExprId) : Build ExprId := do
  let e ← add ⟨name, .unary wrap member⟩
  attach member ⟨e, none⟩
  return e

/-- Makes a reference to a rule. -/
def reference (name target : Text) : Build ExprId := add ⟨name, .reference target none⟩

/-- Makes an expression of no known form. -/
def unknown (name : Text) : Build ExprId := add ⟨name, .unknown⟩

/-- Names an expression. -/
def rename (e : ExprId) (name : Text) : Build Unit :=
  modify fun store => store.change e fun cell => { cell with name }

/-- The place for a new member: a negative index counts back from the end, and an
index outside the list stands for the nearer end. -/
def insertionIndex (length : Nat) (index : Int) : Nat :=
  min length (if index < 0 then (length + index).toNat else index.toNat)

/-- Inserts a member into an open member list.  A reference inserted like this is
not attached. -/
def insert (e : ExprId) (index : Int) (member : ExprId) : Build Unit := do
  let store ← get
  match store[e]? with
  | some ⟨name, .compound order members false⟩ =>
    let i := insertionIndex members.length index
    set (store.setIfInBounds e
      ⟨name, .compound order (members.take i ++ member :: members.drop i) false⟩)
  | _ => throw .closedMembers

end Build

end Pegboard
