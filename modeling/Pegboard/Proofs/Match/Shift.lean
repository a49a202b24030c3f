import Pegboard.Proofs.Grammar.Limit
import Pegboard.Proofs.Match.Tiling
import Pegboard.Regex.Engine

/-!
# A match sees only what is left of the text

What stands before the offset of a match has no part in it.  A prefix in front of the text
moves the match on by the length of the prefix and does nothing else: `Node.behind` puts a
prefix before a tree, and `matchAt_behind` says that the match behind the prefix is the
match without it, put behind the prefix.  This holds at every depth and of errors as well.

Every form looks into the text from the offset on, through `rest` and `startsAt`, and what
a level puts together from its members moves with them (`matchForm_behind`).  The one
condition is that the offset is not negative, since a negative one counts back from the end
of the text.  It passes on to the members, because no match ends before it begins.

Trees that differ by a prefix are alike (`Node.same_behind`) and their spans differ by its
length (`Node.rows_behind`).
-/

namespace Pegboard

/-! ## Looking into a text behind a prefix -/

namespace Text

variable (pre text : Text) {pos : Int}

theorem rest_behind (hpos : 0 ≤ pos) : (pre ++ text).rest (pre.length + pos) = text.rest pos := by
  obtain ⟨n, rfl⟩ := Int.eq_ofNat_of_zero_le hpos
  rw [← Int.natCast_add, rest_natCast, rest_natCast, List.drop_append]
  simp

theorem startsAt_behind (piece : Text) (hpos : 0 ≤ pos) :
    (pre ++ text).startsAt piece (pre.length + pos) = text.startsAt piece pos := by
  have hwithin : ((pre.length : Int) + pos ≤ (pre ++ text).length) = (pos ≤ text.length) := by
    rw [List.length_append, Int.natCast_add, Int.add_le_add_iff_left]
  simp only [startsAt, rest_behind pre text hpos, hwithin]

theorem slice_behind {start stop : Int} (hstart : 0 ≤ start) (hstop : 0 ≤ stop) :
    (pre ++ text).slice (pre.length + start) (pre.length + stop) = text.slice start stop := by
  obtain ⟨a, rfl⟩ := Int.eq_ofNat_of_zero_le hstart
  obtain ⟨b, rfl⟩ := Int.eq_ofNat_of_zero_le hstop
  rw [← Int.natCast_add, ← Int.natCast_add, slice_natCast, slice_natCast, List.take_append,
    List.take_of_length_le (Nat.le_add_right _ _), List.drop_append]
  simp

end Text

/-! ## Trees behind a prefix -/

namespace Node

mutual

/-- The tree with a prefix put before the text that it is of. -/
def behind (pre : Text) : Node → Node
  | ⟨origin, kind, name, full, start, stop, children⟩ =>
    ⟨origin, kind, name, pre ++ full, pre.length + start, pre.length + stop, behindAll pre children⟩

/-- The trees with a prefix put before the text that they are of. -/
def behindAll (pre : Text) : List Node → List Node
  | [] => []
  | n :: rest => n.behind pre :: behindAll pre rest

end

@[simp] theorem behind_stop (pre : Text) (n : Node) : (n.behind pre).stop = pre.length + n.stop := by
  cases n
  simp [behind]

theorem behindAll_eq_map (pre : Text) (nodes : List Node) :
    behindAll pre nodes = nodes.map (behind pre) := by
  induction nodes with
  | nil => simp [behindAll]
  | cons n rest ih => simp [behindAll, ih]

theorem behind_nil (n : Node) : n.behind [] = n := by
  induction n using induct with
  | _ n ih =>
    cases n
    simp [behind, behindAll_eq_map, List.map_congr_left ih]

/-- Neither end of any node of the tree lies before the start of the text. -/
def Forward (n : Node) : Prop := ∀ m ∈ n.nodes, 0 ≤ m.start ∧ 0 ≤ m.stop

mutual

/-- What stands before a tree does not change what it is like. -/
theorem same_behind (pre pre' : Text) :
    ∀ n : Node, n.Forward → (n.behind pre).same (n.behind pre') = true
  | ⟨origin, kind, name, full, start, stop, children⟩, h => by
    have hspan := h _ (mem_nodes.2 (.inl rfl))
    have hchildren := sameAll_behindAll pre pre' children fun c hc m hm =>
      h m (mem_nodes.2 (.inr ⟨c, hc, hm⟩))
    simp [behind, same, Text.slice_behind _ _ hspan.1 hspan.2, hchildren]

theorem sameAll_behindAll (pre pre' : Text) : ∀ nodes : List Node, (∀ n ∈ nodes, n.Forward) →
    sameAll (behindAll pre nodes) (behindAll pre' nodes) = true
  | [], _ => by simp [behindAll, sameAll]
  | n :: rest, h => by
    obtain ⟨hn, hrest⟩ := List.forall_mem_cons.1 h
    simp [behindAll, sameAll, same_behind pre pre' n hn, sameAll_behindAll pre pre' rest hrest]

end

/-- A line of a tree with its span moved on. -/
def Row.later (distance : Nat) (row : Row) : Row :=
  { row with start := distance + row.start, stop := distance + row.stop }

mutual

/-- Behind a prefix every span of a tree is moved on by the length of the prefix. -/
theorem rows_behind (pre : Text) : ∀ (depth : Nat) (n : Node),
    (n.behind pre).rows depth = (n.rows depth).map (Row.later pre.length)
  | depth, ⟨_, _, _, _, _, _, children⟩ => by
    simp [behind, rows, Row.later, rowsAll_behindAll pre (depth + 1) children]

theorem rowsAll_behindAll (pre : Text) : ∀ (depth : Nat) (nodes : List Node),
    rowsAll depth (behindAll pre nodes) = (rowsAll depth nodes).map (Row.later pre.length)
  | _, [] => by simp [behindAll, rowsAll]
  | depth, n :: rest => by
    simp [behindAll, rowsAll, rows_behind pre depth n, rowsAll_behindAll pre depth rest]

end

end Node

namespace Store

/-! ## One level -/

theorem roundsFrom_behind (pre text : Text) (pos : Int) :
    roundsFrom (pre ++ text) (pre.length + pos) = roundsFrom text pos := by
  rw [roundsFrom, roundsFrom, List.length_append, Int.natCast_add, Int.add_sub_add_left]

theorem chainStop_behindAll (pre : Text) (pos : Int) (nodes : List Node) :
    chainStop (pre.length + pos) (Node.behindAll pre nodes) = pre.length + chainStop pos nodes := by
  rw [Node.behindAll_eq_map, chainStop, chainStop, List.getLast?_map]
  cases nodes.getLast? <;> simp

/-- An outcome with its node put behind a prefix. -/
def behindOutcome (pre : Text) (o : Outcome) : Outcome := o.map (Option.map (Node.behind pre))

section Level

variable {pre text : Text} {step step' : ExprId → Int → Outcome}
  (hstep : ∀ e pos, 0 ≤ pos → step' e (pre.length + pos) = behindOutcome pre (step e pos))
include hstep

theorem matchFirst_behind : ∀ (members : List ExprId) (pos : Int), 0 ≤ pos →
    matchFirst step' members (pre.length + pos) = behindOutcome pre (matchFirst step members pos)
  | [], _, _ => rfl
  | e :: rest, pos, hpos => by
    simp only [matchFirst, hstep e pos hpos]
    rcases step e pos with err | _ | node
    · rfl
    · exact matchFirst_behind rest pos hpos
    · rfl

variable (hspans : Spans text step)
include hspans

theorem matchAll_behind : ∀ (members : List ExprId) (pos : Int), 0 ≤ pos →
    matchAll step' members (pre.length + pos) =
      (matchAll step members pos).map
        (Option.map fun r => (Node.behindAll pre r.1, (pre.length : Int) + r.2))
  | [], _, _ => by simp [matchAll, Except.map, Node.behindAll]
  | e :: rest, pos, hpos => by
    simp only [matchAll, hstep e pos hpos]
    rcases he : step e pos with err | _ | node
    · rfl
    · rfl
    · have hstop : 0 ≤ node.stop := Int.le_trans hpos (hspans e pos node he).2.1
      simp only [behindOutcome, Except.map, Option.map_some, Node.behind_stop,
        matchAll_behind rest node.stop hstop]
      rcases matchAll step rest node.stop with err | _ | ⟨nodes, stop⟩ <;>
        simp [Node.behindAll]

theorem matchRepeat_behind (e : ExprId) : ∀ (rounds : Nat) (pos : Int), 0 ≤ pos →
    matchRepeat (step' e) rounds (pre.length + pos) =
      (matchRepeat (step e) rounds pos).map (Node.behindAll pre)
  | 0, _, _ => by simp [matchRepeat, Except.map, Node.behindAll]
  | rounds + 1, pos, hpos => by
    simp only [matchRepeat, hstep e pos hpos]
    rcases he : step e pos with err | _ | node
    · rfl
    · simp [behindOutcome, Except.map, Node.behindAll]
    · have hstop : 0 ≤ node.stop := Int.le_trans hpos (hspans e pos node he).2.1
      simp only [behindOutcome, Except.map, Option.map_some, Node.behind_stop,
        Int.add_right_inj, matchRepeat_behind e rounds node.stop hstop]
      split
      · simp [Node.behindAll]
      · rcases matchRepeat (step e) rounds node.stop with err | nodes <;>
          simp [Node.behindAll]

/-- A level behind a prefix is the level without it, put behind the prefix. -/
theorem matchForm_behind [Platform] {pos : Int} (hpos : 0 ≤ pos) (form : Form) :
    matchForm (pre ++ text) step' (pre.length + pos) form =
      (matchForm text step pos form).map
        (Option.map fun o => ((pre.length : Int) + o.1, Node.behindAll pre o.2)) := by
  unfold matchForm
  split
  · next piece =>
    simp only [Text.startsAt_behind pre text piece hpos, Except.map]
    split <;> simp [Node.behindAll, Int.add_assoc]
  · next pattern =>
    simp only [Text.rest_behind pre text hpos, Except.map]
    cases pattern.matchLength? (text.rest pos) <;> simp [Node.behindAll, Int.add_assoc]
  · next members _ =>
    rw [matchAll_behind hstep hspans members pos hpos]
    rcases matchAll step members pos with err | _ | ⟨nodes, stop⟩ <;> rfl
  · next members _ =>
    rw [matchFirst_behind hstep members pos hpos]
    rcases matchFirst step members pos with err | _ | child <;>
      simp [behindOutcome, Except.map, Node.behindAll]
  · next member =>
    rw [hstep member pos hpos]
    rcases step member pos with err | _ | child <;>
      simp [behindOutcome, Except.map, Node.behindAll]
  · next member =>
    rw [hstep member pos hpos]
    rcases step member pos with err | _ | child <;>
      simp [behindOutcome, Except.map, Node.behindAll]
  · next member =>
    rw [hstep member pos hpos]
    rcases step member pos with err | _ | child <;>
      simp [behindOutcome, Except.map, Node.behindAll]
  · next member =>
    rw [roundsFrom_behind, matchRepeat_behind hstep hspans member _ pos hpos]
    rcases matchRepeat (step member) (roundsFrom text pos) pos with err | nodes <;>
      simp [Except.map, chainStop_behindAll]
  · next least member =>
    rw [roundsFrom_behind, matchRepeat_behind hstep hspans member _ pos hpos]
    rcases matchRepeat (step member) (roundsFrom text pos) pos with err | nodes
    · rfl
    · have hlength : (Node.behindAll pre nodes).length = nodes.length := by
        rw [Node.behindAll_eq_map, List.length_map]
      simp only [Except.map, hlength, chainStop_behindAll]
      split <;> rfl
  · rfl
  · rfl

end Level

/-! ## All levels -/

/-- The match behind a prefix is the match without it, put behind the prefix. -/
theorem matchAt_behind [Platform] [Platform.Bounded] (store : Store) (pre text : Text) :
    ∀ (depth : Nat) (e : ExprId) (pos : Int),
    0 ≤ pos → store.matchAt (pre ++ text) depth e (pre.length + pos) =
      behindOutcome pre (store.matchAt text depth e pos)
  | 0, _, _, _ => rfl
  | depth + 1, e, pos, hpos => by
    rcases hc : store[e]? with _ | cell
    · rw [matchAt_none hc, matchAt_none hc]
      rfl
    · rw [matchAt_succ hc, matchAt_succ hc,
        matchForm_behind (matchAt_behind store pre text depth) (matchAt_spans store text depth) hpos]
      rcases matchForm text (store.matchAt text depth) pos cell.form with err | _ | ⟨stop, nodes⟩ <;>
        simp [behindOutcome, Except.map, nodeOf, Node.behind]

/-- No node of a tree that is matched from the start on or later lies before the start. -/
theorem matchAt_forward [Platform] [Platform.Bounded] {store : Store} {text : Text} {depth : Nat}
    {e : ExprId} {pos : Int} {n : Node} (hpos : 0 ≤ pos)
    (h : store.matchAt text depth e pos = .ok (some n)) :
    n.Forward := by
  intro m hm
  have hstart := (matchAt_spans store text depth e pos n h).1
  have hle := Node.start_le_of_mem_nodes (matchAt_tiles h) m hm
  have hstop := (matchAt_tiles h m hm).within.1
  omega

/-- The second outcome is the first one, moved on: the same error, or nothing in both, or
nodes that are alike and whose spans differ, line by line, by the distance. -/
inductive MovedBy (distance : Nat) : Outcome → Outcome → Prop where
  | error (err : Error) : MovedBy distance (.error err) (.error err)
  | nothing : MovedBy distance (.ok none) (.ok none)
  | node {n n' : Node} : n'.same n = true →
    n'.rows 0 = (n.rows 0).map (Node.Row.later distance) →
    MovedBy distance (.ok (some n)) (.ok (some n'))

/-- A match is moved on by a prefix. -/
theorem matchAt_movedBy [Platform] [Platform.Bounded] (store : Store) (depth : Nat) (e : ExprId)
    (pre text : Text) (pos : Nat) :
    MovedBy pre.length (store.matchAt text depth e pos)
      (store.matchAt (pre ++ text) depth e (pre.length + pos)) := by
  have hpos : (0 : Int) ≤ pos := Int.natCast_nonneg pos
  rw [matchAt_behind store pre text depth e pos hpos]
  rcases h : store.matchAt text depth e pos with err | _ | n
  · exact .error err
  · exact .nothing
  · have halike := Node.same_behind pre [] n (matchAt_forward hpos h)
    rw [Node.behind_nil] at halike
    exact .node halike (Node.rows_behind pre 0 n)

/-- A match at an offset of the text is a match at the start of what is left there. -/
theorem matchAt_drop [Platform] [Platform.Bounded] (store : Store) (depth : Nat) (e : ExprId)
    {text : Text} {pos : Nat} (hpos : pos ≤ text.length) :
    store.matchAt text depth e pos =
      behindOutcome (text.take pos) (store.matchAt (text.drop pos) depth e 0) := by
  have h := matchAt_behind store (text.take pos) (text.drop pos) depth e 0 (Int.le_refl 0)
  rwa [List.take_append_drop, List.length_take_of_le hpos, Int.add_zero] at h

theorem matchAt_drop_movedBy [Platform] [Platform.Bounded] (store : Store) (depth : Nat)
    (e : ExprId) {text : Text} {pos : Nat} (hpos : pos ≤ text.length) :
    MovedBy pos (store.matchAt (text.drop pos) depth e 0) (store.matchAt text depth e pos) := by
  have h := matchAt_movedBy store depth e (text.take pos) (text.drop pos) 0
  rwa [List.take_append_drop, List.length_take_of_le hpos, Int.natCast_zero, Int.add_zero] at h

/-- Two texts in which the same is left at an offset have alike matches there. -/
theorem matchAt_movedBy_zero [Platform] [Platform.Bounded] (store : Store) (depth : Nat)
    (e : ExprId) {text text' : Text} {pos : Nat} (hpos : pos ≤ text.length)
    (hpos' : pos ≤ text'.length) (hrest : text.drop pos = text'.drop pos) :
    MovedBy 0 (store.matchAt text depth e pos) (store.matchAt text' depth e pos) := by
  rw [matchAt_drop store depth e hpos, matchAt_drop store depth e hpos', ← hrest]
  rcases h : store.matchAt (text.drop pos) depth e 0 with err | _ | n
  · exact .error err
  · exact .nothing
  · refine .node (Node.same_behind _ _ n (matchAt_forward (Int.le_refl 0) h)) ?_
    rw [Node.rows_behind, Node.rows_behind, List.length_take_of_le hpos, List.length_take_of_le hpos']
    simp [Node.Row.later]

end Store

namespace Grammar

open Store

/-- Matching does not depend on where it stands.  A prefix moves the match of an expression
on and changes nothing else, whatever the store, the expression and the depth.  To match a
rule at an offset of a text is to match it at the start of what is left there.  And where
the same is left in two texts, the matches are alike and stand at the same place. -/
theorem match_position_independent [Platform] [Platform.Bounded] :
    (∀ (store : Store) (depth : Nat) (e : ExprId) (pre text : Text) (pos : Nat),
      MovedBy pre.length (store.matchAt text depth e pos)
        (store.matchAt (pre ++ text) depth e (pre.length + pos))) ∧
    (∀ (g : Grammar) (depth : Nat) (text : Text) (rule : Option Text) (pos : Nat),
      pos ≤ text.length →
      MovedBy pos (g.parseTo depth (text.drop pos) rule 0) (g.parseTo depth text rule pos)) ∧
    (∀ (g : Grammar) (depth : Nat) (text text' : Text) (rule : Option Text) (pos : Nat),
      pos ≤ text.length → pos ≤ text'.length → text.drop pos = text'.drop pos →
      MovedBy 0 (g.parseTo depth text rule pos) (g.parseTo depth text' rule pos)) := by
  refine ⟨matchAt_movedBy, fun g depth text rule pos hpos => ?_,
    fun g depth text text' rule pos hpos hpos' hrest => ?_⟩
  · unfold parseTo
    cases g.table.rule (rule.getD g.table.start) with
    | error err => exact .error err
    | ok e => exact matchAt_drop_movedBy g.store depth e hpos
  · unfold parseTo
    cases g.table.rule (rule.getD g.table.start) with
    | error err => exact .error err
    | ok e => exact matchAt_movedBy_zero g.store depth e hpos hpos' hrest

/-- The rule `s = /^b/ "a"*`, whose pattern stands at the start of the text. -/
def headed : Grammar :=
  ⟨#[⟨[], .regex ⟨"^b".toText, {}⟩⟩, ⟨[], .literal ['a']⟩, ⟨[], .unary .star 1⟩,
      ⟨['s'], .compound .sequence [0, 2] true⟩], ⟨[(['s'], 3)], ['s']⟩⟩

attribute [local instance] Platform.builtIn

/-- The pattern holds at an offset inside the text, after any character. -/
theorem match_position_independent_headed :
    (∃ n, headed.parseTo 4 "baa".toText none 0 = .ok (some n) ∧ n.rows 0 = [⟨0, .sequence, ['s'], 0, 3⟩,
      ⟨1, .regex, [], 0, 1⟩, ⟨1, .star, [], 1, 3⟩, ⟨2, .literal, [], 1, 2⟩, ⟨2, .literal, [], 2, 3⟩]) ∧
    MovedBy 2 (headed.parseTo 4 "baa".toText none 0) (headed.parseTo 4 "acbaa".toText none (2 : Nat)) ∧
    MovedBy 0 (headed.parseTo 4 "acbaa".toText none (2 : Nat))
      (headed.parseTo 4 "bbbaa".toText none (2 : Nat)) := by
  refine ⟨⟨_, rfl, by decide⟩, ?_, ?_⟩
  · exact match_position_independent.2.1 headed 4 "acbaa".toText none 2 (by decide)
  · exact match_position_independent.2.2 headed 4 "acbaa".toText "bbbaa".toText none 2 (by decide)
      (by decide) rfl

end Grammar

end Pegboard
