import Pegboard.Expr.Build

/-!
# Linking references

Once all rules are known, every reference is replaced by the rule it names: the
slot that it records is overwritten.  Nothing is written before every target is
found.  All rules exist by then, so a reference may name a later rule, or the one
that it stands in.
-/

namespace Pegboard

/-- The rules of a grammar by name, in order. -/
abbrev Rules := List (Text × ExprId)

/-- The rules with one more.  A name that is there already keeps its place and gets
the new expression. -/
def Rules.put : Rules → Text → ExprId → Rules
  | [], name, e => [(name, e)]
  | (other, f) :: rest, name, e =>
    if other = name then (name, e) :: rest else (other, f) :: Rules.put rest name e

/-- The rules of pairs, where the last pair of a name counts. -/
def Rules.ofPairs (pairs : List (Text × ExprId)) : Rules :=
  pairs.foldl (fun rules (name, e) => rules.put name e) []

namespace Build

/-- The place of an index in a list, which a negative one counts back from its end. -/
def slotIndex? (length : Nat) (slot : Int) : Option Nat :=
  let i := if slot < 0 then length + slot else slot
  if 0 ≤ i ∧ i < length then some i.toNat else none

/-- Puts an expression into the slot of a reference to `target`. -/
def fill (target : Text) (place : Option Place) (e : ExprId) : Build Unit := do
  let store ← get
  match place with
  | none => throw (.unplaced target)
  | some place =>
    match store[place.parent]?, place.slot with
    | some ⟨_, .compound _ _ _⟩, none => throw (.unnumbered target)
    | some ⟨_, .compound _ _ true⟩, some _ => throw .frozenSlot
    | some ⟨name, .compound order members false⟩, some slot =>
      match slotIndex? members.length slot with
      | none => throw .slotOutOfRange
      | some i =>
        set (store.setIfInBounds place.parent ⟨name, .compound order (members.set i e) false⟩)
    | some ⟨name, .unary wrap _⟩, _ =>
      set (store.setIfInBounds place.parent ⟨name, .unary wrap e⟩)
    | _, _ => throw (.unplaced target)

/-- The target of a pending reference and the slot that it records. -/
def pending? (store : Store) (e : ExprId) : Option (Text × Option Place) :=
  match store[e]? with
  | some ⟨_, .reference target place⟩ => some (target, place)
  | _ => none

/-- Fails at the first reference whose target is missing from the rules. -/
def checkTargets (rules : Rules) : List ExprId → Build Unit
  | [] => return ()
  | e :: rest => do
    match pending? (← get) e with
    | some (target, _) =>
      if (rules.lookup target).isNone then throw (.undefinedRule target)
      checkTargets rules rest
    | none => checkTargets rules rest

/-- Fills the slots of references, one after the other. -/
def fillAll (rules : Rules) : List ExprId → Build Unit
  | [] => return ()
  | e :: rest => do
    match pending? (← get) e with
    | some (target, place) =>
      match rules.lookup target with
      | some rule => fill target place rule
      | none => throw (.undefinedRule target)
      fillAll rules rest
    | none => fillAll rules rest

/-- Replaces references by the rules they name. -/
def link (rules : Rules) (pending : List ExprId) : Build Unit := do
  checkTargets rules pending
  fillAll rules pending

end Build

end Pegboard
