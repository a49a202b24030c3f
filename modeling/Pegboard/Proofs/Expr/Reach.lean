import Mathlib.Algebra.BigOperators.Group.List.Basic
import Mathlib.Algebra.GroupWithZero.Nat
import Mathlib.Data.List.Induction
import Pegboard.Expr.Walk

/-!
# What a walk visits

`Reach next roots e` says that `e` can be reached from the roots by going from an
expression to one that `next` gives.  A walk with enough steps visits exactly these
expressions (`mem_walk_iff`).

Enough is one step more than the walk's work: the length of the stack and, for every
expression that has not been seen, the number of its members.  A step takes one
expression off the stack; its members move from the second summand to the first when it
is seen for the first time.
-/

namespace Pegboard.Store

/-- An expression that can be reached from the roots. -/
inductive Reach (next : ExprId → List ExprId) (roots : List ExprId) : ExprId → Prop where
  | root {e : ExprId} : e ∈ roots → Reach next roots e
  | member {e m : ExprId} : Reach next roots e → m ∈ next e → Reach next roots m

/-- What can be reached stays reachable from more roots that reach the old ones. -/
theorem Reach.trans {next : ExprId → List ExprId} {roots roots' : List ExprId} {e : ExprId}
    (h : Reach next roots e) (hroots : ∀ r ∈ roots, Reach next roots' r) : Reach next roots' e := by
  induction h with
  | root he => exact hroots _ he
  | member _ hm ih => exact .member ih hm

/-- What can be reached depends on the members of an expression but not on their order. -/
theorem Reach.congr {next next' : ExprId → List ExprId} {roots roots' : List ExprId} {e : ExprId}
    (hnext : ∀ e, ∀ m ∈ next e, m ∈ next' e) (hroots : ∀ r ∈ roots, r ∈ roots')
    (h : Reach next roots e) : Reach next' roots' e := by
  induction h with
  | root he => exact .root (hroots _ he)
  | member _ hm ih => exact .member ih (hnext _ _ hm)

/-! ## The work of a walk -/

/-- The members of the expressions below a bound that have not been seen. -/
def unseenEdges (next : ExprId → List ExprId) (seen : List ExprId) (bound : Nat) : Nat :=
  ((List.range bound).map fun e => if e ∈ seen then 0 else (next e).length).sum

theorem unseenEdges_cons {next : ExprId → List ExprId} {seen : List ExprId} {bound : Nat}
    {e : ExprId} (hnew : e ∉ seen) (hbound : bound ≤ e → next e = []) :
    unseenEdges next (e :: seen) bound + (next e).length = unseenEdges next seen bound := by
  induction bound with
  | zero => simp [unseenEdges, hbound (Nat.zero_le e)]
  | succ bound ih =>
    simp only [unseenEdges, List.range_succ, List.map_append, List.map_cons, List.map_nil,
      List.sum_append, List.sum_cons, List.sum_nil, Nat.add_zero] at ih ⊢
    by_cases heq : bound = e
    · -- The last expression is the one just seen; those below it are as before.
      subst heq
      have hbelow : (List.range bound).map (fun x => if x ∈ bound :: seen then 0 else (next x).length)
          = (List.range bound).map fun x => if x ∈ seen then 0 else (next x).length := by
        refine List.map_congr_left fun x hx => ?_
        have hne : x ≠ bound := Nat.ne_of_lt (List.mem_range.1 hx)
        simp [hne]
      rw [hbelow]
      simp [hnew]
    · have hlast : (if bound ∈ e :: seen then 0 else (next bound).length) =
          if bound ∈ seen then 0 else (next bound).length := by
        simp [heq]
      rw [hlast]
      have hih := ih fun hle => hbound (Nat.lt_of_le_of_ne hle heq)
      omega

/-! ## Soundness and completeness -/

/-- A walk visits only what can be reached from its stack. -/
theorem reach_of_mem_walk {next : ExprId → List ExprId} : ∀ {fuel : Nat} {seen stack : List ExprId}
    {x : ExprId}, x ∈ walk next fuel seen stack → Reach next stack x
  | 0, _, _, _, h => by simp [walk] at h
  | _ + 1, _, [], _, h => by simp [walk] at h
  | fuel + 1, seen, e :: stack, x, h => by
    simp only [walk] at h
    split at h
    · exact (reach_of_mem_walk h).trans fun r hr => .root (List.mem_cons_of_mem e hr)
    · rcases List.mem_cons.1 h with rfl | h
      · exact .root List.mem_cons_self
      · refine (reach_of_mem_walk h).trans fun r hr => ?_
        rcases List.mem_append.1 hr with hr | hr
        · exact .member (.root List.mem_cons_self) hr
        · exact .root (List.mem_cons_of_mem e hr)

/-- With enough steps, a walk visits its stack and the members of all that it visits,
those seen before apart. -/
theorem walk_closed {next : ExprId → List ExprId} {bound : Nat}
    (hbound : ∀ e, bound ≤ e → next e = []) : ∀ {fuel : Nat} {seen stack : List ExprId},
    stack.length + unseenEdges next seen bound < fuel →
    (∀ x ∈ stack, x ∈ seen ∨ x ∈ walk next fuel seen stack) ∧
    ∀ x ∈ walk next fuel seen stack, ∀ m ∈ next x, m ∈ seen ∨ m ∈ walk next fuel seen stack
  | 0, _, _, hlt => absurd hlt (Nat.not_lt_zero _)
  | _ + 1, _, [], _ => by simp [walk]
  | fuel + 1, seen, e :: stack, hlt => by
    simp only [List.length_cons] at hlt
    simp only [walk]
    split
    · next hseen =>
      have hmem : e ∈ seen := by simpa using hseen
      obtain ⟨hstack, hclosed⟩ := walk_closed hbound
        (show stack.length + unseenEdges next seen bound < fuel by omega)
      refine ⟨fun x hx => ?_, hclosed⟩
      rcases List.mem_cons.1 hx with rfl | hx
      · exact .inl hmem
      · exact hstack x hx
    · next hseen =>
      have hnew : e ∉ seen := by simpa using hseen
      have hwork := unseenEdges_cons hnew (hbound e)
      have hless : (next e ++ stack).length + unseenEdges next (e :: seen) bound < fuel := by
        rw [List.length_append]
        omega
      obtain ⟨hstack, hclosed⟩ := walk_closed hbound hless
      have hmove : ∀ y, y ∈ e :: seen ∨ y ∈ walk next fuel (e :: seen) (next e ++ stack) →
          y ∈ seen ∨ y ∈ e :: walk next fuel (e :: seen) (next e ++ stack) := by
        intro y hy
        rcases hy with hy | hy
        · rcases List.mem_cons.1 hy with rfl | hy
          · exact .inr List.mem_cons_self
          · exact .inl hy
        · exact .inr (List.mem_cons_of_mem e hy)
      refine ⟨fun x hx => ?_, fun x hx m hm => ?_⟩
      · rcases List.mem_cons.1 hx with rfl | hx
        · exact .inr List.mem_cons_self
        · exact hmove x (hstack x (List.mem_append_right _ hx))
      · rcases List.mem_cons.1 hx with rfl | hx
        · exact hmove m (hstack m (List.mem_append_left _ hm))
        · exact hmove m (hclosed x hx m hm)

/-- With enough steps, a walk from the roots visits exactly what can be reached. -/
theorem mem_walk_iff {next : ExprId → List ExprId} (bound : Nat) {fuel : Nat} {roots : List ExprId}
    (hbound : ∀ e, bound ≤ e → next e = [])
    (hfuel : roots.length + unseenEdges next [] bound < fuel) (e : ExprId) :
    e ∈ walk next fuel [] roots ↔ Reach next roots e := by
  constructor
  · exact reach_of_mem_walk
  · intro h
    obtain ⟨hroots, hclosed⟩ := walk_closed hbound hfuel
    induction h with
    | root he => exact (hroots _ he).resolve_left List.not_mem_nil
    | member _ hm ih => exact (hclosed _ ih _ hm).resolve_left List.not_mem_nil

/-! ## Walks of a store -/

theorem membersOf_eq {store : Store} {e : ExprId} {cell : Cell} (h : store[e]? = some cell) :
    store.membersOf e = cell.members := by
  simp [membersOf, h]

theorem membersOf_eq_nil {store : Store} {e : ExprId} (h : store.size ≤ e) :
    store.membersOf e = [] := by
  simp [membersOf, Array.getElem?_eq_none h]

theorem edgeCount_eq (store : Store) :
    store.edgeCount = ((List.range store.size).map fun e => (store.membersOf e).length).sum := by
  obtain ⟨cells⟩ := store
  rw [edgeCount, ← Array.foldl_toList, List.size_toArray]
  induction cells using List.reverseRecOn with
  | nil => rfl
  | append_singleton cells cell ih =>
    rw [List.foldl_append, ih, List.length_append, List.length_singleton, List.range_succ,
      List.map_append, List.sum_append]
    simp only [List.foldl_cons, List.foldl_nil, List.map_cons, List.map_nil, List.sum_cons,
      List.sum_nil, Nat.add_zero]
    congr 1
    · refine congrArg List.sum (List.map_congr_left fun x hx => ?_)
      have hlt : x < cells.length := List.mem_range.1 hx
      simp [membersOf, List.getElem?_append_left hlt]
    · simp [membersOf]

/-- The members of an expression from last to first. -/
def lastMembers (store : Store) (e : ExprId) : List ExprId := (store.membersOf e).reverse

theorem lastMembers_eq_nil {store : Store} {e : ExprId} (h : store.size ≤ e) :
    store.lastMembers e = [] := by
  rw [lastMembers, membersOf_eq_nil h, List.reverse_nil]

theorem reachedFromLast_eq (store : Store) (roots : List ExprId) :
    store.reachedFromLast roots = walk store.lastMembers (store.walkFuel roots) [] roots.reverse := rfl

/-- The steps that freezing allows itself are enough. -/
theorem work_lt_walkFuel (store : Store) (roots : List ExprId) :
    roots.reverse.length + unseenEdges store.lastMembers [] store.size < store.walkFuel roots := by
  simp only [List.length_reverse, unseenEdges, lastMembers, List.not_mem_nil, if_false, walkFuel,
    edgeCount_eq]
  omega

/-- Freezing visits exactly the expressions that can be reached. -/
theorem mem_reachedFromLast_iff (store : Store) (roots : List ExprId) (e : ExprId) :
    e ∈ store.reachedFromLast roots ↔ Reach store.membersOf roots e := by
  rw [reachedFromLast_eq, mem_walk_iff store.size (fun x hx => lastMembers_eq_nil hx)
    (store.work_lt_walkFuel roots)]
  constructor
  · exact Reach.congr (fun e m hm => List.mem_reverse.1 hm) fun r hr => List.mem_reverse.1 hr
  · exact Reach.congr (fun e m hm => List.mem_reverse.2 hm) fun r hr => List.mem_reverse.2 hr

end Pegboard.Store
