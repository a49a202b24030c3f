import Pegboard.Proofs.Expr.Freeze

/-!
# Freezing is exact

Freezing empties a stack.  It takes the first expression off, passes over one that it has
seen, stops at a reference, and else closes the member list and puts the members on the
stack.  `Freezes` describes these steps and does not bound their number: an expression may
stand on the stack many times, and a cycle leads back to what was seen.  From every stack
the steps come to an end, and there is no other end than the one that freezing gives
(`freezes_iff`).

What is visited can be reached, and if no reference is in the way, all that can be reached
is visited.  So freezing succeeds where no reference can be reached, names one that can
where it fails, and closes member lists in both cases and does nothing else
(`freeze_exact`).
-/

namespace Pegboard

open Store

/-- Closing its member list is all that can be done to an expression: it is as it was, or it
was open and is closed. -/
theorem Cell.freeze_cases (cell : Cell) : cell.freeze = cell ∨ ∃ name order members,
    cell = ⟨name, .compound order members false⟩ ∧ cell.freeze = ⟨name, .compound order members true⟩ := by
  obtain ⟨name, form⟩ := cell
  cases form with
  | compound order members frozen =>
    cases frozen with
    | true => exact .inl rfl
    | false => exact .inr ⟨name, order, members, rfl, rfl⟩
  | _ => exact .inl rfl

namespace Build

/-! ## The steps of freezing -/

/-- The steps of freezing from a store, with the expressions seen so far and the stack of
those to visit, lead to a result and a store. -/
inductive Freezes : Store → (seen stack : List ExprId) → Except Error Unit × Store → Prop where
  /-- Nothing is left to visit. -/
  | done {store : Store} {seen : List ExprId} : Freezes store seen [] (.ok ⟨⟩, store)
  /-- An expression that was seen is passed over. -/
  | again {store : Store} {seen stack : List ExprId} {e : ExprId} {final : Except Error Unit × Store} :
    e ∈ seen → Freezes store seen stack final → Freezes store seen (e :: stack) final
  /-- A reference ends it. -/
  | reference {store : Store} {seen stack : List ExprId} {e : ExprId} {target : Text} :
    e ∉ seen → store.targetOf? e = some target →
    Freezes store seen (e :: stack) (.error (.unlinked target), store)
  /-- An expression that was not seen is frozen, and its members are put on the stack, the
  last one on top. -/
  | first {store : Store} {seen stack : List ExprId} {e : ExprId} {final : Except Error Unit × Store} :
    e ∉ seen → store.targetOf? e = none →
    Freezes (store.change e Cell.freeze) (e :: seen) (store.lastMembers e ++ stack) final →
    Freezes store seen (e :: stack) final

/-- The steps come to one end at most. -/
theorem Freezes.functional {store : Store} {seen stack : List ExprId}
    {final final' : Except Error Unit × Store} (h : Freezes store seen stack final)
    (h' : Freezes store seen stack final') : final = final' := by
  induction h with
  | done => cases h' with | done => rfl
  | again hmem _ ih =>
    cases h' with
    | again _ hrest => exact ih hrest
    | reference hnew _ => exact absurd hmem hnew
    | first hnew _ _ => exact absurd hmem hnew
  | reference hnew htarget =>
    cases h' with
    | again hmem _ => exact absurd hmem hnew
    | reference _ htarget' => rw [Option.some.inj (htarget.symm.trans htarget')]
    | first _ hnone _ => exact absurd (hnone.symm.trans htarget) (Option.some_ne_none _).symm
  | first hnew hnone _ ih =>
    cases h' with
    | again hmem _ => exact absurd hmem hnew
    | reference _ htarget => exact absurd (hnone.symm.trans htarget) (Option.some_ne_none _).symm
    | first _ _ hrest => exact ih hrest

theorem membersOf_change_freeze (store : Store) (e i : ExprId) :
    (store.change e Cell.freeze).membersOf i = store.membersOf i := by
  simp only [membersOf, getElem?_change]
  split
  · cases store[i]? with
    | none => rfl
    | some cell => exact cell.freeze_members
  · rfl

/-- The steps visit what the walk visits, for what is frozen has the same members as before. -/
theorem freezes_walk {next : ExprId → List ExprId} {bound : Nat}
    (hbound : ∀ e, bound ≤ e → next e = []) : ∀ {fuel : Nat} {seen stack : List ExprId} {store : Store},
    (∀ e, store.lastMembers e = next e) → stack.length + unseenEdges next seen bound < fuel →
    Freezes store seen stack ((freezeAll (walk next fuel seen stack)).runOn store)
  | 0, _, _, _, _, hlt => absurd hlt (Nat.not_lt_zero _)
  | _ + 1, _, [], _, _, _ => .done
  | fuel + 1, seen, e :: stack, store, hnext, hlt => by
    rw [List.length_cons] at hlt
    rw [walk]
    split
    · next hseen => exact .again (by simpa using hseen) (freezes_walk hbound hnext (by omega))
    · next hseen =>
      have hnew : e ∉ seen := by simpa using hseen
      rw [freezeAll, runOn_bind_ok (runOn_get store)]
      split
      · next htarget => exact .reference hnew htarget
      · next hnone =>
        have hwork := unseenEdges_cons hnew (hbound e)
        have hnext' : ∀ i, (store.change e Cell.freeze).lastMembers i = next i := by
          intro i
          rw [lastMembers, membersOf_change_freeze]
          exact hnext i
        refine .first hnew hnone ?_
        rw [runOn_bind_ok (runOn_set store _), hnext]
        refine freezes_walk hbound hnext' ?_
        rw [List.length_append]
        omega

theorem freeze_runOn_eq (store : Store) (roots : List ExprId) :
    (freeze roots).runOn store = (freezeAll (store.reachedFromLast roots)).runOn store := by
  rw [freeze, runOn_bind_ok (runOn_get store)]

/-- The steps of freezing come to an end, and that is what freezing gives. -/
theorem freezes_iff (store : Store) (roots : List ExprId) (final : Except Error Unit × Store) :
    Freezes store [] roots.reverse final ↔ (freeze roots).runOn store = final := by
  have hruns : Freezes store [] roots.reverse ((freeze roots).runOn store) := by
    rw [freeze_runOn_eq, reachedFromLast_eq]
    exact freezes_walk (fun e he => lastMembers_eq_nil he) (fun _ => rfl) (store.work_lt_walkFuel roots)
  constructor
  · exact hruns.functional
  · rintro rfl
    exact hruns

/-! ## What they leave behind -/

/-- Freezing expressions that include a reference fails and names one of them. -/
theorem freezeAll_error : ∀ {es : List ExprId} {store : Store}, (∃ e ∈ es, store.targetOf? e ≠ none) →
    ∃ e ∈ es, ∃ target, store.targetOf? e = some target ∧
      ((freezeAll es).runOn store).1 = .error (.unlinked target)
  | [], _, h => by
    obtain ⟨e, he, -⟩ := h
    cases he
  | e :: rest, store, h => by
    rw [freezeAll, runOn_bind_ok (runOn_get store)]
    split
    · next target htarget => exact ⟨e, List.mem_cons_self, target, htarget, rfl⟩
    · next hnone =>
      have hrest : ∃ x ∈ rest, (store.change e Cell.freeze).targetOf? x ≠ none := by
        obtain ⟨x, hx, href⟩ := h
        rcases List.mem_cons.1 hx with rfl | hx
        · exact absurd hnone href
        · exact ⟨x, hx, by rwa [targetOf?_change_freeze]⟩
      obtain ⟨x, hx, target, htarget, hrun⟩ := freezeAll_error hrest
      rw [targetOf?_change_freeze] at htarget
      exact ⟨x, List.mem_cons_of_mem e hx, target, htarget, by rw [runOn_bind_ok (runOn_set store _), hrun]⟩

/-- Freezing expressions freezes some of them and leaves all others as they are, whether it
fails or not. -/
theorem freezeAll_cells : ∀ (es : List ExprId) (store : Store) (i : ExprId),
    ((freezeAll es).runOn store).2[i]? = store[i]? ∨
      i ∈ es ∧ ((freezeAll es).runOn store).2[i]? = store[i]?.map Cell.freeze
  | [], _, _ => .inl rfl
  | e :: rest, store, i => by
    rw [freezeAll, runOn_bind_ok (runOn_get store)]
    split
    · exact .inl rfl
    · rw [runOn_bind_ok (runOn_set store _)]
      have hrest := freezeAll_cells rest (store.change e Cell.freeze) i
      rw [getElem?_change] at hrest
      split at hrest
      · next hi =>
        refine .inr ⟨hi ▸ List.mem_cons_self, ?_⟩
        rcases hrest with hrest | ⟨-, hrest⟩
        · exact hrest
        · rw [hrest, Option.map_map]
          exact congrArg (Option.map · store[i]?) (funext Cell.freeze_freeze)
      · exact hrest.imp_right (And.imp_left (List.mem_cons_of_mem e))

/-- Freezing fails where a reference can be reached, and names one. -/
theorem freeze_error {store : Store} {roots : List ExprId}
    (h : ¬ ∀ e, Reach store.membersOf roots e → store.targetOf? e = none) :
    ∃ e target, Reach store.membersOf roots e ∧ store.targetOf? e = some target ∧
      ((freeze roots).runOn store).1 = .error (.unlinked target) := by
  obtain ⟨e, he⟩ := not_forall.1 h
  obtain ⟨hreach, href⟩ := Classical.not_imp.1 he
  obtain ⟨x, hx, target, htarget, hrun⟩ :=
    freezeAll_error ⟨e, (store.mem_reachedFromLast_iff roots e).2 hreach, href⟩
  exact ⟨x, target, (store.mem_reachedFromLast_iff roots x).1 hx, htarget, by rw [freeze_runOn_eq, hrun]⟩

/-- Freezing leaves every expression as it was, or closes the member list of one that can be
reached. -/
theorem freeze_cells (store : Store) (roots : List ExprId) (e : ExprId) :
    ((freeze roots).runOn store).2[e]? = store[e]? ∨
      Reach store.membersOf roots e ∧ ∃ name order members,
        store[e]? = some ⟨name, .compound order members false⟩ ∧
        ((freeze roots).runOn store).2[e]? = some ⟨name, .compound order members true⟩ := by
  rw [freeze_runOn_eq]
  rcases freezeAll_cells (store.reachedFromLast roots) store e with hsame | ⟨hmem, hcell⟩
  · exact .inl hsame
  · rcases he : store[e]? with _ | cell
    · rw [he] at hcell
      exact .inl hcell
    · rw [he, Option.map_some] at hcell
      rcases cell.freeze_cases with hsame | ⟨name, order, members, rfl, hclosed⟩
      · exact .inl (by rw [hcell, hsame])
      · exact .inr ⟨(store.mem_reachedFromLast_iff roots e).1 hmem, name, order, members, rfl,
          by rw [hcell, hclosed]⟩

theorem membersOf_freeze (store : Store) (roots : List ExprId) (e : ExprId) :
    ((freeze roots).runOn store).2.membersOf e = store.membersOf e := by
  rcases freeze_cells store roots e with hsame | ⟨-, name, order, members, hopen, hclosed⟩
  · rw [membersOf, membersOf, hsame]
  · rw [membersOf_eq hopen, membersOf_eq hclosed]
    rfl

theorem targetOf?_freeze (store : Store) (roots : List ExprId) (e : ExprId) :
    ((freeze roots).runOn store).2.targetOf? e = store.targetOf? e := by
  rcases freeze_cells store roots e with hsame | ⟨-, name, order, members, hopen, hclosed⟩
  · rw [targetOf?, targetOf?, hsame]
  · rw [targetOf?, targetOf?, hopen, hclosed]
    rfl

/-- Where no reference can be reached, freezing succeeds.  Every member list that can be
reached is closed then, so that freezing once more has nothing to do. -/
theorem freeze_ok {store : Store} {roots : List ExprId}
    (h : ∀ e, Reach store.membersOf roots e → store.targetOf? e = none) :
    ∃ store', (freeze roots).runOn store = (.ok ⟨⟩, store') ∧
      (∀ e cell, Reach store.membersOf roots e → store'[e]? = some cell → cell.isOpen = false) ∧
      (freeze roots).runOn store' = (.ok ⟨⟩, store') := by
  obtain ⟨store', hrun, -, hfrozen, -⟩ := freeze_runOn h
  have hmembers : store'.membersOf = store.membersOf := by
    funext e
    rw [← membersOf_freeze store roots e, hrun]
  have htargets : ∀ e, store'.targetOf? e = store.targetOf? e := by
    intro e
    rw [← targetOf?_freeze store roots e, hrun]
  have hdone : ∀ e cell, Reach store.membersOf roots e → store'[e]? = some cell →
      ∃ old : Cell, cell = old.freeze := by
    intro e cell hreach hcell
    rw [hfrozen e hreach] at hcell
    obtain ⟨old, -, rfl⟩ := Option.map_eq_some_iff.1 hcell
    exact ⟨old, rfl⟩
  refine ⟨store', hrun, fun e cell hreach hcell => ?_, ?_⟩
  · obtain ⟨old, rfl⟩ := hdone e cell hreach hcell
    exact old.isOpen_freeze
  · have hrefs : ∀ e, Reach store'.membersOf roots e → store'.targetOf? e = none := by
      intro e he
      rw [htargets]
      exact h e (hmembers ▸ he)
    obtain ⟨store'', hrun', -, hfrozen', hrest'⟩ := freeze_runOn hrefs
    rw [hrun']
    refine congrArg (Prod.mk _) (Array.ext_getElem? fun e => ?_)
    by_cases hreach : Reach store'.membersOf roots e
    · rw [hfrozen' e hreach]
      rcases he : store'[e]? with _ | cell
      · rfl
      · obtain ⟨old, rfl⟩ := hdone e cell (hmembers ▸ hreach) he
        rw [Option.map_some, Cell.freeze_freeze]
    · exact hrest' e hreach

/-- What freezing does to any store from any roots.  Its steps come to an end, and to one end
only.  It succeeds if and only if no reference can be reached, and fails with the target of one
that can.  After a success every member list that can be reached is closed, and freezing once
more changes nothing.  Success or not, an expression is as it was, or it can be reached, had an
open member list and has the same list closed. -/
theorem freeze_exact (store : Store) (roots : List ExprId) :
    ∃ result store', (freeze roots).runOn store = (result, store') ∧
      (∀ final, Freezes store [] roots.reverse final ↔ final = (result, store')) ∧
      (result = .ok ⟨⟩ ↔ ∀ e, Reach store.membersOf roots e → store.targetOf? e = none) ∧
      (∀ err, result = .error err → ∃ e target, Reach store.membersOf roots e ∧
        store.targetOf? e = some target ∧ err = .unlinked target ∧
        err.message = "unresolved reference to ".toText ++ Error.named target) ∧
      (result = .ok ⟨⟩ →
        (∀ e cell, Reach store.membersOf roots e → store'[e]? = some cell → cell.isOpen = false) ∧
        (freeze roots).runOn store' = (.ok ⟨⟩, store')) ∧
      ∀ e, store'[e]? = store[e]? ∨
        Reach store.membersOf roots e ∧ ∃ name order members,
          store[e]? = some ⟨name, .compound order members false⟩ ∧
          store'[e]? = some ⟨name, .compound order members true⟩ := by
  have hcells := freeze_cells store roots
  have hsteps := freezes_iff store roots
  by_cases hrefs : ∀ e, Reach store.membersOf roots e → store.targetOf? e = none
  · obtain ⟨store', hrun, hclosed, hagain⟩ := freeze_ok hrefs
    rw [hrun] at hcells hsteps
    exact ⟨.ok ⟨⟩, store', hrun, fun final => (hsteps final).trans eq_comm, iff_of_true rfl hrefs,
      nofun, fun _ => ⟨hclosed, hagain⟩, hcells⟩
  · obtain ⟨e, target, hreach, htarget, hfail⟩ := freeze_error hrefs
    rcases hrun : (freeze roots).runOn store with ⟨result, store'⟩
    rw [hrun] at hcells hsteps hfail
    obtain rfl : result = .error (.unlinked target) := hfail
    refine ⟨_, store', rfl, fun final => (hsteps final).trans eq_comm, iff_of_false nofun hrefs, ?_,
      nofun, hcells⟩
    rintro err ⟨⟩
    exact ⟨e, target, hreach, htarget, rfl, rfl⟩

-- Two rules that hold each other, the second one with a reference behind the first one.  The
-- reference is met first, and by then only the list that holds it is closed.
example : (freeze [0, 1, 1]).runOn #[⟨['a'], .compound .choice [1] false⟩,
      ⟨['b'], .compound .sequence [0, 2] false⟩, ⟨[], .reference ['c'] none⟩] =
    (.error (.unlinked ['c']), #[⟨['a'], .compound .choice [1] false⟩,
      ⟨['b'], .compound .sequence [0, 2] true⟩, ⟨[], .reference ['c'] none⟩]) := by
  decide

end Build

end Pegboard
