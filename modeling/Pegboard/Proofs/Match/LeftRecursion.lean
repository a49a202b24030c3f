import Mathlib.Data.Finset.Card
import Mathlib.Logic.Relation
import Pegboard.Proofs.Match.Answers
import Pegboard.Proofs.Match.Closed
import Pegboard.Proofs.Match.Tiling

/-!
# Graphs without left recursion

An expression calls a member from the left if it may match that member before anything of
the text is used up.  `Nullable` tells conservatively which expressions may match without
using anything up, and `LeftCalls` is the relation that follows from it.

A match that ends where it begins is one of a nullable expression (`matchAt_nullable`).  So
a level matches its members at its own offset only where it calls them from the left, and
otherwise further on (`matchForm_answers_of_leftCalls`).  If no expression calls itself from
the left, over any number of steps, then a match gets further in the text or goes down
this order.  The number of expressions that one calls from the left in the end, `below`,
measures how far down it is.  With what is left of the text it bounds the depth that a
match needs (`matchAt_answers_of_acyclic`).
-/

namespace Pegboard.Store

variable [Platform]

/-- The expressions that may match without using anything up: the least set with the empty
literal, patterns that can match the empty text, sequences of members of the set, choices
with such a member, and the forms that never need to use anything up. -/
inductive Nullable (store : Store) : ExprId → Prop where
  | literal {e : ExprId} {name : Text} : store[e]? = some ⟨name, .literal []⟩ → Nullable store e
  | regex {e : ExprId} {name : Text} {pattern : Regex.Pattern} {text : Text} :
    store[e]? = some ⟨name, .regex pattern⟩ → pattern.matchLength? text = some 0 → Nullable store e
  | sequence {e : ExprId} {name : Text} {members : List ExprId} {frozen : Bool} :
    store[e]? = some ⟨name, .compound .sequence members frozen⟩ → (∀ m ∈ members, Nullable store m) →
    Nullable store e
  | choice {e m : ExprId} {name : Text} {members : List ExprId} {frozen : Bool} :
    store[e]? = some ⟨name, .compound .choice members frozen⟩ → m ∈ members → Nullable store m →
    Nullable store e
  | lookahead {e m : ExprId} {name : Text} :
    store[e]? = some ⟨name, .unary .lookahead m⟩ → Nullable store e
  | negation {e m : ExprId} {name : Text} :
    store[e]? = some ⟨name, .unary .negation m⟩ → Nullable store e
  | optional {e m : ExprId} {name : Text} :
    store[e]? = some ⟨name, .unary .optional m⟩ → Nullable store e
  | star {e m : ExprId} {name : Text} : store[e]? = some ⟨name, .unary .star m⟩ → Nullable store e
  | plus {e m : ExprId} {name : Text} {least : Int} :
    store[e]? = some ⟨name, .unary (.plus least) m⟩ → least ≤ 0 → Nullable store e

/-- An expression calls a member from the left: any member of a choice, the member of a
form that has one, and a member of a sequence if all those before it are nullable. -/
inductive LeftCalls (store : Store) : ExprId → ExprId → Prop where
  | choice {e m : ExprId} {name : Text} {members : List ExprId} {frozen : Bool} :
    store[e]? = some ⟨name, .compound .choice members frozen⟩ → m ∈ members → LeftCalls store e m
  | unary {e m : ExprId} {name : Text} {wrap : Wrap} :
    store[e]? = some ⟨name, .unary wrap m⟩ → LeftCalls store e m
  | sequence {e m : ExprId} {name : Text} {before after : List ExprId} {frozen : Bool} :
    store[e]? = some ⟨name, .compound .sequence (before ++ m :: after) frozen⟩ →
    (∀ b ∈ before, Nullable store b) → LeftCalls store e m

/-! ## A match that uses nothing up -/

section Vanishing

variable {store : Store} {text : Text} {step : ExprId → Int → Outcome} (hs : Spans text step)
  (hnull : ∀ e pos node, step e pos = .ok (some node) → node.stop = pos → Nullable store e)
include hs hnull

/-- If members use nothing up one after the other, none of them does. -/
theorem matchAll_nullable : ∀ {members : List ExprId} {pos : Int} {nodes : List Node},
    matchAll step members pos = .ok (some (nodes, pos)) → ∀ m ∈ members, Nullable store m
  | [], _, _, _ => nofun
  | e :: rest, pos, nodes, h => by
    simp only [matchAll] at h
    rcases he : step e pos with err | _ | node <;> rw [he] at h
    · cases h
    · cases h
    rcases hr : matchAll step rest node.stop with err | _ | ⟨more, last⟩ <;> simp only [hr] at h
    · cases h
    · cases h
    cases h
    have hstop : node.stop = pos :=
      Int.le_antisymm (matchAll_spans hs hr).1 (hs e pos node he).2.1
    rw [hstop] at hr
    exact List.forall_mem_cons.2 ⟨hnull e pos node he hstop, matchAll_nullable hr⟩

omit hs in
theorem matchFirst_nullable : ∀ {members : List ExprId} {pos : Int} {node : Node},
    matchFirst step members pos = .ok (some node) → node.stop = pos → ∃ m ∈ members, Nullable store m
  | [], _, _, h, _ => by cases h
  | e :: rest, pos, node, h, hstop => by
    simp only [matchFirst] at h
    rcases he : step e pos with err | _ | first <;> rw [he] at h
    · cases h
    · obtain ⟨m, hm, hnullable⟩ := matchFirst_nullable h hstop
      exact ⟨m, List.mem_cons_of_mem e hm, hnullable⟩
    · cases h
      exact ⟨e, List.mem_cons_self, hnull e pos node he hstop⟩

omit hnull [Platform] in
/-- A repetition that ends where it begins has no rounds. -/
theorem matchRepeat_eq_nil {e : ExprId} {rounds : Nat} {pos : Int} {nodes : List Node}
    (h : matchRepeat (step e) rounds pos = .ok nodes) (hstop : chainStop pos nodes = pos) :
    nodes = [] := by
  cases rounds with
  | zero =>
    cases h
    rfl
  | succ rounds =>
    simp only [matchRepeat] at h
    rcases he : step e pos with err | _ | node <;> rw [he] at h
    · cases h
    · cases h
      rfl
    dsimp only at h
    split at h
    · cases h
      rfl
    next hmoved =>
      rcases hr : matchRepeat (step e) rounds node.stop with err | more <;> simp only [hr] at h
      · cases h
      cases h
      rw [chainStop_cons] at hstop
      have hle := (matchRepeat_spans hs hr).1
      have hle' := (hs e pos node he).2.1
      omega

/-- A level that uses nothing up is one of a nullable expression. -/
theorem matchForm_nullable {e : ExprId} {cell : Cell} (hc : store[e]? = some cell) {pos : Int}
    {nodes : List Node} (h : matchForm text step pos cell.form = .ok (some (pos, nodes))) :
    Nullable store e := by
  obtain ⟨name, form⟩ := cell
  change matchForm text step pos form = _ at h
  unfold matchForm at h
  split at h
  · next piece =>
    split at h
    · have hlength : pos + (piece.length : Int) = pos := congrArg Prod.fst (Option.some.inj (Except.ok.inj h))
      have hnil : piece = [] := List.length_eq_zero_iff.1 (by omega)
      subst hnil
      exact .literal hc
    · cases h
  · obtain ⟨length, hlength, ho⟩ := Option.map_eq_some_iff.1 (Except.ok.inj h)
    have hzero : pos + (length : Int) = pos := congrArg Prod.fst ho
    rw [show length = 0 by omega] at hlength
    exact .regex hc hlength
  · obtain ⟨r, hr, ho⟩ := map_eq_ok h
    obtain ⟨⟨_, _⟩, rfl, hnodes⟩ := Option.map_eq_some_iff.1 ho
    cases hnodes
    exact .sequence hc (matchAll_nullable hs hnull hr)
  · obtain ⟨r, hr, ho⟩ := map_eq_ok h
    obtain ⟨child, rfl, hchild⟩ := Option.map_eq_some_iff.1 ho
    have hstop : child.stop = pos := (Prod.mk.inj hchild).1
    obtain ⟨m, hm, hnullable⟩ := matchFirst_nullable hnull hr hstop
    exact .choice hc hm hnullable
  · exact .lookahead hc
  · exact .negation hc
  · exact .optional hc
  · exact .star hc
  · obtain ⟨nodes', hr, ho⟩ := map_eq_ok h
    split at ho
    · cases ho
    next hleast =>
      obtain ⟨hstop, rfl⟩ := Prod.mk.inj (Option.some.inj ho)
      rw [matchRepeat_eq_nil hs hr hstop] at hleast
      exact .plus hc (by simpa using hleast)
  · cases h
  · cases h

end Vanishing

/-- A match that ends where it begins is one of a nullable expression. -/
theorem matchAt_nullable [Platform.Bounded] (store : Store) (text : Text) : ∀ (depth : Nat)
    (e : ExprId) (pos : Int) (node : Node),
    store.matchAt text depth e pos = .ok (some node) → node.stop = pos → Nullable store e
  | 0, _, _, _, h, _ => by cases h
  | depth + 1, e, pos, node, h, hstop => by
    rcases hc : store[e]? with _ | cell
    · rw [matchAt_none hc] at h
      cases h
    · rw [matchAt_succ hc] at h
      obtain ⟨o, ho, hnode⟩ := map_eq_ok h
      obtain ⟨⟨stop, nodes⟩, rfl, rfl⟩ := Option.map_eq_some_iff.1 hnode
      change stop = pos at hstop
      subst hstop
      exact matchForm_nullable (matchAt_spans store text depth) (matchAt_nullable store text depth) hc ho

/-! ## A level answers if the members do that it calls -/

section Calls

variable {store : Store} {text : Text} {step : ExprId → Int → Outcome} (hs : Spans text step)
  (hnull : ∀ e pos node, step e pos = .ok (some node) → node.stop = pos → Nullable store e)
include hs hnull

/-- Members are matched at the offset as long as those before them are nullable, and
otherwise past it. -/
theorem matchAll_answers_of_leftmost : ∀ {members : List ExprId} {pos : Int},
    (∀ before m after, members = before ++ m :: after → (∀ b ∈ before, Nullable store b) →
      Answers step m pos) →
    (∀ m ∈ members, ∀ pos', EndsFrom text pos pos' → pos < pos' → Answers step m pos') →
    ∃ r, matchAll step members pos = .ok r
  | [], _, _, _ => ⟨_, rfl⟩
  | e :: rest, pos, hhere, hlater => by
    refine matchAll_cons_answers (hhere [] e rest rfl nofun) fun node hnode => ?_
    have hends := (hs e pos node hnode).2
    rcases Int.lt_or_eq_of_le hends.1 with hlt | heq
    · exact matchAll_answers hs fun m hm pos' hends' =>
        hlater m (List.mem_cons_of_mem e hm) pos' (hends.trans hends') (Int.lt_of_lt_of_le hlt hends'.1)
    · rw [← heq]
      refine matchAll_answers_of_leftmost (fun before m after hrest hbefore => ?_)
        fun m hm => hlater m (List.mem_cons_of_mem e hm)
      refine hhere (e :: before) m after (by rw [hrest, List.cons_append]) ?_
      exact List.forall_mem_cons.2 ⟨hnull e pos node hnode heq.symm, hbefore⟩

omit hnull [Platform] in
/-- The member of a repetition is matched at the offset once, and then past it. -/
theorem matchRepeat_answers_of_later {e : ExprId} {pos : Int} (hhere : Answers step e pos)
    (hlater : ∀ pos', EndsFrom text pos pos' → pos < pos' → Answers step e pos') (rounds : Nat) :
    ∃ nodes, matchRepeat (step e) rounds pos = .ok nodes := by
  cases rounds with
  | zero => exact ⟨_, rfl⟩
  | succ rounds =>
    refine matchRepeat_succ_answers hhere fun node hnode hmoved => matchRepeat_answers hs ?_
    intro pos' hends'
    have hends := (hs e pos node hnode).2
    exact hlater pos' (hends.trans hends') (by have := hends.1; have := hends'.1; omega)

/-- A level answers if the members do that it calls from the left, and its members do past
its offset. -/
theorem matchForm_answers_of_leftCalls {e : ExprId} {cell : Cell} (hc : store[e]? = some cell)
    (hform : cell.form.Finished) {pos : Int} (hhere : ∀ m, LeftCalls store e m → Answers step m pos)
    (hlater : ∀ m ∈ cell.members, ∀ pos', EndsFrom text pos pos' → pos < pos' → Answers step m pos') :
    ∃ o, matchForm text step pos cell.form = .ok o := by
  obtain ⟨name, form⟩ := cell
  change ∃ o, matchForm text step pos form = .ok o
  cases form with
  | literal piece => exact ⟨_, rfl⟩
  | regex pattern => exact ⟨_, rfl⟩
  | compound order members frozen =>
    cases order with
    | sequence =>
      refine map_answers _ (matchAll_answers_of_leftmost hs hnull ?_ hlater)
      rintro before m after rfl hbefore
      exact hhere m (.sequence hc hbefore)
    | choice => exact map_answers _ (matchFirst_answers fun m hm => hhere m (.choice hc hm))
  | unary wrap member =>
    have hmember := hhere member (.unary hc)
    cases wrap with
    | lookahead | negation | optional => exact map_answers _ hmember
    | star | plus least =>
      exact map_answers _ (matchRepeat_answers_of_later hs hmember (hlater member List.mem_cons_self) _)
  | reference target place => exact hform.elim
  | unknown => exact hform.elim

end Calls

/-! ## All levels -/

omit [Platform] in
/-- A relation that goes down along numbers has no cycle.  An expression may have several
numbers. -/
theorem not_transGen_of_ranked {r : ExprId → ExprId → Prop} (Ranked : ExprId → Nat → Prop)
    (h : ∀ e n m, Ranked e n → r e m → ∃ k < n, Ranked m k) :
    ∀ (n : Nat) (e : ExprId), Ranked e n → ¬ Relation.TransGen r e e := by
  intro n
  induction n using Nat.strong_induction_on with
  | _ n ih =>
    intro e he hcycle
    obtain ⟨m, hem, hme⟩ := Relation.TransGen.head'_iff.1 hcycle
    obtain ⟨k, hk, hm⟩ := h e n m he hem
    exact ih k hk m hm (Relation.TransGen.tail' hme hem)

section Acyclic

open Classical in
/-- The expressions of a set that one calls from the left, over any number of steps. -/
noncomputable def below (store : Store) (S : Finset ExprId) (e : ExprId) : Finset ExprId :=
  S.filter (Relation.TransGen (LeftCalls store) e)

variable {store : Store} {S : Finset ExprId}

theorem mem_below {e m : ExprId} :
    m ∈ below store S e ↔ m ∈ S ∧ Relation.TransGen (LeftCalls store) e m := by
  classical exact Finset.mem_filter

theorem LeftCalls.mem_members {e m : ExprId} (h : LeftCalls store e m) :
    ∃ cell, store[e]? = some cell ∧ m ∈ cell.members := by
  cases h with
  | choice hc hm => exact ⟨_, hc, hm⟩
  | unary hc => exact ⟨_, hc, List.mem_cons_self⟩
  | sequence hc _ => exact ⟨_, hc, List.mem_append_right _ List.mem_cons_self⟩

/-- A closed set is closed under calls from the left. -/
theorem Closed.leftCalls (hclosed : store.Closed (· ∈ S)) {e m : ExprId} (he : e ∈ S)
    (h : LeftCalls store e m) : m ∈ S := by
  obtain ⟨cell, hc, -, hmembers⟩ := hclosed e he
  obtain ⟨cell', hc', hm⟩ := h.mem_members
  cases hc.symm.trans hc'
  exact hmembers m hm

variable (hclosed : store.Closed (· ∈ S))
  (hacyclic : ∀ e ∈ S, ¬ Relation.TransGen (LeftCalls store) e e)
include hacyclic

theorem card_below_lt {e : ExprId} (he : e ∈ S) : (below store S e).card < S.card := by
  refine Finset.card_lt_card ⟨fun m hm => (mem_below.1 hm).1, fun hsub => ?_⟩
  exact hacyclic e he (mem_below.1 (hsub he)).2

include hclosed

/-- What is called from the left has fewer expressions below it. -/
theorem card_below_lt_of_leftCalls {e m : ExprId} (he : e ∈ S) (h : LeftCalls store e m) :
    (below store S m).card < (below store S e).card := by
  have hm := hclosed.leftCalls he h
  refine Finset.card_lt_card ⟨fun k hk => ?_, fun hsub => ?_⟩
  · obtain ⟨hk, hmk⟩ := mem_below.1 hk
    exact mem_below.2 ⟨hk, .head h hmk⟩
  · exact hacyclic m hm (mem_below.1 (hsub (mem_below.2 ⟨hm, .single h⟩))).2

/-- A match answers at every depth past what is left of the text, counted once for each
expression, and the number of expressions below. -/
theorem matchAt_answers_of_acyclic [Platform.Bounded] (text : Text) : ∀ (depth : Nat)
    (e : ExprId), e ∈ S →
    ∀ pos : Int, S.card * (text.length - pos).toNat + (below store S e).card < depth →
    Answers (store.matchAt text depth) e pos
  | 0, _, _, _, h => absurd h (Nat.not_lt_zero _)
  | depth + 1, e, he, pos, h => by
    obtain ⟨cell, hc, hform, hmembers⟩ := hclosed e he
    rw [Answers, matchAt_succ hc]
    refine map_answers _ (matchForm_answers_of_leftCalls (matchAt_spans store text depth)
      (matchAt_nullable store text depth) hc hform ?_ ?_)
    · intro m hm
      have hlt := card_below_lt_of_leftCalls hclosed hacyclic he hm
      exact matchAt_answers_of_acyclic text depth m (hclosed.leftCalls he hm) pos (by omega)
    · -- Further on, less of the text is left, which outweighs any number of expressions below.
      intro m hm pos' hends hlt
      refine matchAt_answers_of_acyclic text depth m (hmembers m hm) pos' ?_
      have hbelow := card_below_lt hacyclic (hmembers m hm)
      have hleft : (text.length - pos').toNat + 1 ≤ (text.length - pos).toNat := by
        have := hends.2
        omega
      have hmul := Nat.mul_le_mul_left S.card hleft
      rw [Nat.mul_add_one] at hmul
      omega

/-- A match inside a closed set without left recursion has one result, at every depth of at
least the number of expressions times the length of the text and two. -/
theorem exists_matchAt_of_acyclic [Platform.Bounded] {e : ExprId} (he : e ∈ S) (text : Text)
    {pos : Int} (hpos : 0 ≤ pos) :
    ∃ r, ∀ depth, S.card * (text.length + 2) ≤ depth → store.matchAt text depth e pos = .ok r := by
  have hbelow := card_below_lt hacyclic he
  have hleft : S.card * (text.length - pos).toNat ≤ S.card * text.length :=
    Nat.mul_le_mul_left S.card (by omega)
  obtain ⟨r, hr⟩ := matchAt_answers_of_acyclic hclosed hacyclic text (S.card * (text.length + 2)) e he pos
    (by rw [Nat.mul_add]; omega)
  exact ⟨r, fun depth hdepth => matchAt_mono hdepth hr⟩

end Acyclic

end Pegboard.Store
