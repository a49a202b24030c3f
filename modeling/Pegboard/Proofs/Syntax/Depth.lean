import Pegboard.Proofs.Match.Answers
import Pegboard.Proofs.Match.Closed
import Pegboard.Proofs.Syntax.Part

/-!
# How deep reading a definition text nests

The parts of the definition language are ranked so that every part holds parts of a lower
rank only, but for three of them: behind `!` and `&` there is a term again, and behind `(`
an expression.  Each of these signs is a character of the text, so the depth of a match is
bounded by the rank of the part and the number of such signs that are left.  With a depth
past that bound a match gives an answer (`matchAt_answers`).
-/

namespace Pegboard

namespace Syntax

open Store

/-! ## Ranks and signs -/

/-- How many levels of parts there are below a part, up to the next sign that nests. -/
def Part.rank : Part → Nat
  | equalsSign | labelText | slash | bang | ampersand | quantifierSign | quoted | tilde | flags
  | opening | closing | spaces | comment => 0
  | blank => 1
  | layout => 2
  | equals | label | quantifier | literal | regex | notTerm | lookaheadTerm | parenthesized => 3
  | notEquals => 4
  | reference => 5
  | atom => 6
  | quantified => 7
  | term => 8
  | moreTerms => 9
  | sequence => 10
  | alternative => 11
  | orTerm => 12
  | orTerms => 13
  | ored => 14
  | expression => 15
  | rule => 16
  | ruleList => 17
  | rules => 18

/-- Whether a character is a sign behind which a term or an expression is nested. -/
def nests (c : Codepoint) : Bool := c == '(' || c == '!' || c == '&'

/-- How many signs that nest are left from an offset on. -/
def nesting (text : Text) (pos : Int) : Nat := (text.rest pos).countP nests

theorem nesting_le (text : Text) {pos pos' : Int} (hpos : 0 ≤ pos) (hle : pos ≤ pos') :
    nesting text pos' ≤ nesting text pos := by
  obtain ⟨n, rfl⟩ := Int.eq_ofNat_of_zero_le hpos
  obtain ⟨k, rfl⟩ := Int.le.dest hle
  rw [← Int.natCast_add, nesting, nesting, Text.rest_natCast, Text.rest_natCast, ← List.drop_drop]
  exact (List.drop_sublist k _).countP_le

/-- A sign that nests is behind a match of it. -/
theorem nesting_lt {text : Text} {c : Codepoint} {pos : Int} (hpos : 0 ≤ pos) (hc : nests c = true)
    (h : text.startsAt [c] pos = true) : nesting text (pos + 1) < nesting text pos := by
  obtain ⟨n, rfl⟩ := Int.eq_ofNat_of_zero_le hpos
  rw [Text.startsAt, Bool.and_eq_true, List.isPrefixOf_iff_prefix, Text.rest_natCast] at h
  obtain ⟨rest, hrest⟩ := h.1
  have hnext : text.drop (n + 1) = rest := by
    rw [← List.drop_drop, ← hrest]
    rfl
  rw [show (n : Int) + 1 = (n + 1 : Nat) from rfl, nesting, nesting, Text.rest_natCast,
    Text.rest_natCast, hnext, ← hrest, List.singleton_append, List.countP_cons_of_pos hc]
  exact Nat.lt_succ_self _

namespace Part

variable {full : Bool} {ids : Part → ExprId}

/-- The parts that a part is made of. -/
def members (full : Bool) : Part → List Part
  | rules => [layout, ruleList]
  | ruleList => [rule]
  | rule => [label, equals, expression]
  | equals => [equalsSign, layout]
  | label => [labelText, layout]
  | expression => [ored, sequence, term]
  | ored => [alternative, orTerms]
  | orTerms => [orTerm]
  | orTerm => [slash, layout, alternative]
  | alternative => [sequence, term]
  | sequence => [term, moreTerms]
  | moreTerms => [term]
  | term => if full then [notTerm, lookaheadTerm, quantified, atom] else [notTerm, quantified, atom]
  | notTerm => [bang, term, layout]
  | lookaheadTerm => [ampersand, term, layout]
  | quantified => [atom, quantifier]
  | quantifier => [quantifierSign, layout]
  | atom => if full then [reference, literal, regex, parenthesized] else [reference, literal, regex]
  | reference => [label, notEquals]
  | notEquals => [equals]
  | literal => [quoted, layout]
  | regex => [tilde, quoted, flags, layout]
  | parenthesized => [opening, layout, expression, closing, layout]
  | layout => [blank]
  | blank => [spaces, comment]
  | equalsSign | labelText | slash | bang | ampersand | quantifierSign | quoted | tilde | flags
  | opening | closing | spaces | comment => []

theorem members_form (full : Bool) (ids : Part → ExprId) (p : Part) :
    (p.form full ids).members = (p.members full).map ids := by
  cases p <;> cases full <;> rfl

/-- What the core is made of is in the core. -/
theorem isExtra_members {p q : Part} (hp : p.isExtra = true → full = true) (hq : q ∈ p.members full) :
    q.isExtra = true → full = true := by
  cases full with
  | true => exact fun _ => rfl
  | false =>
    revert q
    cases p <;> revert hp <;> decide

/-- The parts behind whose sign a term or an expression is nested. -/
def isNested : Part → Bool
  | notTerm | lookaheadTerm | parenthesized => true
  | _ => false

/-- The members of a part are of lower rank. -/
theorem rank_members {p q : Part} (hnested : p.isNested = false) (hq : q ∈ p.members full) :
    q.rank < p.rank := by
  revert q
  cases full <;> cases p <;> revert hnested <;> decide

/-- A nested part starts with its sign, and what comes behind it is an expression at most. -/
theorem form_nested (full : Bool) (ids : Part → ExprId) {p : Part} (hnested : p.isNested = true) :
    ∃ (sign : Part) (c : Codepoint) (rest : List Part), p.members full = sign :: rest ∧
      p.form full ids = .compound .sequence (ids sign :: rest.map ids) true ∧
      sign.form full ids = .literal [c] ∧ nests c = true ∧ sign.rank < p.rank ∧
      ∀ q ∈ rest, q.rank < p.rank + 13 := by
  cases p with
  | notTerm => exact ⟨.bang, '!', [.term, .layout], rfl, rfl, rfl, rfl, by decide, by decide⟩
  | lookaheadTerm => exact ⟨.ampersand, '&', [.term, .layout], rfl, rfl, rfl, rfl, by decide, by decide⟩
  | parenthesized =>
    exact ⟨.opening, '(', [.layout, .expression, .closing, .layout], rfl, rfl, rfl, rfl, by decide,
      by decide⟩
  | _ => cases hnested

theorem form_finished (full : Bool) (ids : Part → ExprId) (p : Part) : (p.form full ids).Finished := by
  cases p <;> exact trivial

end Part

/-- A part gives an answer at every depth past its rank and thirteen levels for each sign
that nests. -/
theorem Speaks.matchAt_answers [Platform] [Platform.Bounded] {full : Bool} {store : Store}
    {ids : Part → ExprId} (hs : Speaks full store ids) (text : Text) : ∀ (depth : Nat) {p : Part},
    (p.isExtra = true → full = true) → ∀ {pos : Int}, 0 ≤ pos →
    p.rank + 13 * nesting text pos < depth → ∃ o, store.matchAt text depth (ids p) pos = .ok o
  | 0, _, _, _, _, h => absurd h (Nat.not_lt_zero _)
  | depth + 1, p, hp, pos, hpos, h => by
    have hspans := matchAt_spans store text depth
    suffices hform : ∃ o, matchForm text (store.matchAt text depth) pos (p.form full ids) = .ok o by
      obtain ⟨o, ho⟩ := hform
      rw [matchAt_succ (hs p hp), ho]
      exact ⟨_, rfl⟩
    cases hnested : p.isNested with
    | false =>
      refine matchForm_answers hspans (p.form_finished full ids) fun m hm pos' hle => ?_
      rw [Part.members_form] at hm
      obtain ⟨q, hq, rfl⟩ := List.mem_map.1 hm
      have hrank := Part.rank_members hnested hq
      have hfewer := nesting_le text hpos hle.1
      exact hs.matchAt_answers text depth (Part.isExtra_members hp hq) (Int.le_trans hpos hle.1) (by omega)
    | true =>
      obtain ⟨sign, c, rest, hmembers, hform, hliteral, hc, hrank, hrest⟩ :=
        Part.form_nested full ids hnested
      have hsign : sign.isExtra = true → full = true :=
        Part.isExtra_members hp (hmembers ▸ List.mem_cons_self)
      rw [hform]
      refine matchForm_sequence_answers hspans (hs.matchAt_answers text depth hsign hpos (by omega))
        fun node ho m hm pos' hle => ?_
      -- The sign has matched, so that there is one less of them from here on.
      obtain ⟨hstarts, hstop⟩ : text.startsAt [c] pos = true ∧ node.stop = pos + 1 := by
        cases depth with
        | zero => cases ho
        | succ depth =>
          rw [matchAt_succ (hs sign hsign), hliteral, matchForm] at ho
          split at ho
          · next hstarts =>
            cases ho
            exact ⟨hstarts, rfl⟩
          · cases ho
      obtain ⟨q, hq, rfl⟩ := List.mem_map.1 hm
      have hrank' := hrest q hq
      have hafter := hle.1
      have hless := nesting_lt hpos hc hstarts
      have hfewer : nesting text pos' ≤ nesting text (pos + 1) :=
        nesting_le text (by omega) (hstop ▸ hafter)
      exact hs.matchAt_answers text depth
        (Part.isExtra_members hp (hmembers ▸ List.mem_cons_of_mem sign hq)) (by omega) (by omega)

end Syntax

end Pegboard
