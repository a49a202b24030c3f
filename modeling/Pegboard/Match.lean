import Pegboard.Expr.Basic
import Pegboard.Node.Basic

/-!
# Matching

An expression is matched against a text at an offset.  The match begins exactly
there and gives a node or nothing.  Choice is ordered: the first member that
matches is taken for good.  A repetition goes on until its member fails or matches
without moving; a match that does not move ends the repetition and is not kept.  A
pattern sees only what is left of the text at the offset.

A rule may refer to itself, so a match may go on forever.  `matchAt` takes the
depth to which it may nest and fails past it.  Where it does not fail, a greater
depth gives the same answer.  A repetition needs no bound of its own, since each
of its rounds moves on and none moves past the end of the text; the number of
offsets up to the end bounds its rounds.
-/

namespace Pegboard.Store

/-- The outcome of a match: an error, or a node, or nothing. -/
abbrev Outcome := Except Error (Option Node)

/-- Matches members one after the other, and gives their nodes and where the last
one ends. -/
def matchAll (step : ExprId → Int → Outcome) :
    List ExprId → Int → Except Error (Option (List Node × Int))
  | [], pos => .ok (some ([], pos))
  | e :: rest, pos =>
    match step e pos with
    | .error err => .error err
    | .ok none => .ok none
    | .ok (some node) =>
      match matchAll step rest node.stop with
      | .error err => .error err
      | .ok none => .ok none
      | .ok (some (nodes, stop)) => .ok (some (node :: nodes, stop))

/-- Matches the first member that matches. -/
def matchFirst (step : ExprId → Int → Outcome) : List ExprId → Int → Outcome
  | [], _ => .ok none
  | e :: rest, pos =>
    match step e pos with
    | .error err => .error err
    | .ok (some node) => .ok (some node)
    | .ok none => matchFirst step rest pos

/-- Matches over and over, at most so many times, as long as the match moves. -/
def matchRepeat (step : Int → Outcome) : (rounds : Nat) → Int → Except Error (List Node)
  | 0, _ => .ok []
  | rounds + 1, pos =>
    match step pos with
    | .error err => .error err
    | .ok none => .ok []
    | .ok (some node) =>
      if node.stop = pos then .ok []
      else
        match matchRepeat step rounds node.stop with
        | .error err => .error err
        | .ok nodes => .ok (node :: nodes)

/-- Where a chain of nodes from an offset ends. -/
def chainStop (pos : Int) (nodes : List Node) : Int := (nodes.getLast?.map Node.stop).getD pos

/-- The rounds that are enough for a repetition from an offset. -/
def roundsFrom (text : Text) (pos : Int) : Nat := (text.length - pos).toNat + 1

variable [Platform]

/-- Matches an expression of the store at an offset of a text, nesting to the given
depth at most. -/
def matchAt (store : Store) (text : Text) : (depth : Nat) → ExprId → Int → Outcome
  | 0, _, _ => .error .tooDeep
  | depth + 1, e, pos =>
    match store[e]? with
    | none => .error .unknownExpression
    | some cell =>
      let node (stop : Int) (children : List Node) : Node :=
        ⟨e, cell.kind, cell.name, text, pos, stop, children⟩
      match cell.form with
      | .literal piece =>
        .ok (if text.startsAt piece pos then some (node (pos + piece.length) []) else none)
      | .regex pattern =>
        .ok ((pattern.matchLength? (text.rest pos)).map fun length => node (pos + length) [])
      | .compound .sequence members _ =>
        match matchAll (store.matchAt text depth) members pos with
        | .error err => .error err
        | .ok none => .ok none
        | .ok (some (nodes, stop)) => .ok (some (node stop nodes))
      | .compound .choice members _ =>
        match matchFirst (store.matchAt text depth) members pos with
        | .error err => .error err
        | .ok none => .ok none
        | .ok (some child) => .ok (some (node child.stop [child]))
      | .unary .lookahead member =>
        match store.matchAt text depth member pos with
        | .error err => .error err
        | .ok none => .ok none
        | .ok (some _) => .ok (some (node pos []))
      | .unary .negation member =>
        match store.matchAt text depth member pos with
        | .error err => .error err
        | .ok none => .ok (some (node pos []))
        | .ok (some _) => .ok none
      | .unary .optional member =>
        match store.matchAt text depth member pos with
        | .error err => .error err
        | .ok none => .ok (some (node pos []))
        | .ok (some child) => .ok (some (node child.stop [child]))
      | .unary .star member =>
        match matchRepeat (store.matchAt text depth member) (roundsFrom text pos) pos with
        | .error err => .error err
        | .ok nodes => .ok (some (node (chainStop pos nodes) nodes))
      | .unary (.plus least) member =>
        match matchRepeat (store.matchAt text depth member) (roundsFrom text pos) pos with
        | .error err => .error err
        | .ok nodes =>
          .ok (if nodes.length < least then none else some (node (chainStop pos nodes) nodes))
      | .reference target _ => .error (.referenceReached target)
      | .unknown => .error .unknownExpression

/-- The depth to which matches and renderings may nest. -/
def depthLimit : Nat := 4000

/-- Matches an expression of the store at an offset of a text. -/
def matchExpr (store : Store) (e : ExprId) (text : Text) (pos : Int) : Outcome :=
  store.matchAt text depthLimit e pos

end Pegboard.Store
