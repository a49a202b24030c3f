import Pegboard.Expr.Basic

/-!
# Walking a graph

A walk visits the expressions that can be reached from given ones, depth first,
each at its first visit.  It keeps a stack of expressions to visit and the list
of those seen.  The two orders in use differ in which member comes first: a
listing takes members from first to last, and freezing from last to first.

Every step takes one expression off the stack.  What is put on it are the members
of an expression seen for the first time, so the members of the whole store bound
the steps.
-/

namespace Pegboard.Store

/-- How many members the expressions of the store have. -/
def edgeCount (store : Store) : Nat :=
  store.foldl (fun n cell => n + cell.members.length) 0

/-- The expressions that a walk visits, in order.  `next` gives the members of an
expression in the order in which they are to be visited. -/
def walk (next : ExprId → List ExprId) : (fuel : Nat) → (seen stack : List ExprId) → List ExprId
  | 0, _, _ => []
  | _ + 1, _, [] => []
  | fuel + 1, seen, e :: stack =>
    if seen.contains e then walk next fuel seen stack
    else e :: walk next fuel (e :: seen) (next e ++ stack)

/-- The steps that are enough for a walk from the given expressions. -/
def walkFuel (store : Store) (roots : List ExprId) : Nat := roots.length + store.edgeCount + 1

/-- The expressions reached from the roots, members from first to last. -/
def reached (store : Store) (roots : List ExprId) : List ExprId :=
  walk store.membersOf (store.walkFuel roots) [] roots

/-- The expressions reached from the roots, roots and members from last to first. -/
def reachedFromLast (store : Store) (roots : List ExprId) : List ExprId :=
  walk (fun e => (store.membersOf e).reverse) (store.walkFuel roots) [] roots.reverse

/-- The expressions reached from the roots, numbered anew in the order of the
listing: each with its cell and the new numbers of its members. -/
def listing (store : Store) (roots : List ExprId) : List (Cell × List Nat) :=
  let order := store.reached roots
  order.filterMap fun e => store[e]?.map fun cell => (cell, cell.members.map (order.idxOf ·))

end Pegboard.Store
