import Pegboard.Expr.Build
import Pegboard.Expr.Walk

/-!
# Freezing a graph

A graph that is finished is frozen: the member list of every sequence and choice
in it is closed.  A finished graph holds no reference.  Freezing goes through the
expressions from last to first and stops at a reference, so what it has visited
before that stays frozen.
-/

namespace Pegboard

/-- The expression with its member list closed. -/
def Cell.freeze (cell : Cell) : Cell :=
  match cell.form with
  | .compound order members _ => { cell with form := .compound order members true }
  | _ => cell

/-- Whether the expression has an open member list. -/
def Cell.isOpen (cell : Cell) : Bool :=
  match cell.form with
  | .compound _ _ frozen => !frozen
  | _ => false

namespace Build

/-- Freezes expressions one after the other, up to the first reference. -/
def freezeAll : List ExprId → Build Unit
  | [] => return ()
  | e :: rest => do
    let store ← get
    match store.targetOf? e with
    | some target => throw (.unlinked target)
    | none =>
      set (store.change e Cell.freeze)
      freezeAll rest

/-- Freezes everything that can be reached from the roots. -/
def freeze (roots : List ExprId) : Build Unit := do
  let store ← get
  freezeAll (store.reachedFromLast roots)

end Build

end Pegboard
