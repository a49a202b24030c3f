import Pegboard.Expr.Freeze
import Pegboard.Proofs.Expr.Reach

/-!
# What freezing does

First, how steps of type `Build` run: reading the graph, writing it and adding to it
have an equation each, and `runOn_bind_ok` and `runOn_bind_error` open a step that is
made of two.

Freezing then closes the member lists of everything that can be reached and changes
nothing else, if no reference can be reached (`freeze_runOn`).
-/

namespace Pegboard

namespace Build

variable {α β : Type}

/-! ## Running steps -/

@[simp] theorem runOn_pure (a : α) (store : Store) : (pure a : Build α).runOn store = (.ok a, store) :=
  rfl

@[simp] theorem runOn_get (store : Store) : (get : Build Store).runOn store = (.ok store, store) :=
  rfl

@[simp] theorem runOn_set (store store' : Store) :
    (set store' : Build PUnit).runOn store = (.ok ⟨⟩, store') := rfl

theorem runOn_bind_ok {step : Build α} {next : α → Build β} {store store' : Store} {a : α}
    (h : step.runOn store = (.ok a, store')) :
    (step >>= next).runOn store = (next a).runOn store' := by
  rw [runOn_bind, h]

theorem runOn_bind_error {step : Build α} {next : α → Build β} {store store' : Store} {e : Error}
    (h : step.runOn store = (.error e, store')) :
    (step >>= next).runOn store = (.error e, store') := by
  rw [runOn_bind, h]

@[simp] theorem runOn_add (cell : Cell) (store : Store) :
    (add cell).runOn store = (.ok store.size, store.push cell) := rfl

end Build

/-! ## Changing one expression -/

namespace Store

theorem getElem?_change (store : Store) (e : ExprId) (f : Cell → Cell) (i : ExprId) :
    (store.change e f)[i]? = if i = e then store[i]?.map f else store[i]? := by
  unfold change
  rcases h : store[e]? with _ | cell <;> dsimp only
  · by_cases hi : i = e
    · rw [if_pos hi, hi, h]
      rfl
    · rw [if_neg hi]
  · by_cases hi : i = e
    · subst hi
      have hlt : i < store.size := (Array.getElem?_eq_some_iff.1 h).1
      rw [if_pos rfl, h, Array.getElem?_setIfInBounds_self_of_lt hlt]
      rfl
    · rw [if_neg hi]
      exact Array.getElem?_setIfInBounds_ne (Ne.symm hi)

theorem size_change (store : Store) (e : ExprId) (f : Cell → Cell) :
    (store.change e f).size = store.size := by
  unfold change
  split <;> simp

end Store

/-! ## Freezing -/

/-- The form is one that can be matched: no reference, and a known one. -/
def Form.Finished : Form → Prop
  | .reference _ _ | .unknown => False
  | _ => True

theorem Cell.target?_of_finished {cell : Cell} (h : cell.form.Finished) : cell.target? = none := by
  obtain ⟨name, form⟩ := cell
  cases form with
  | reference target place => exact absurd h id
  | _ => rfl

theorem Cell.freeze_target? (cell : Cell) : cell.freeze.target? = cell.target? := by
  obtain ⟨name, form⟩ := cell
  cases form <;> rfl

theorem Cell.freeze_members (cell : Cell) : cell.freeze.members = cell.members := by
  obtain ⟨name, form⟩ := cell
  cases form <;> rfl

theorem Cell.isOpen_freeze (cell : Cell) : cell.freeze.isOpen = false := by
  obtain ⟨name, form⟩ := cell
  cases form <;> rfl

/-- A reference has no member list to freeze. -/
theorem Cell.freeze_of_target? {cell : Cell} (h : cell.target? ≠ none) : cell.freeze = cell := by
  obtain ⟨name, form⟩ := cell
  cases form with
  | reference target place => rfl
  | _ => exact absurd rfl h

@[simp] theorem Cell.freeze_freeze (cell : Cell) : cell.freeze.freeze = cell.freeze := by
  obtain ⟨name, form⟩ := cell
  cases form <;> rfl

namespace Build

theorem targetOf?_change_freeze (store : Store) (e i : ExprId) :
    (store.change e Cell.freeze).targetOf? i = store.targetOf? i := by
  simp only [Store.targetOf?, Store.getElem?_change]
  split
  · cases store[i]? with
    | none => rfl
    | some cell => exact cell.freeze_target?
  · rfl

/-- Freezing expressions none of which is a reference freezes each of them and leaves the
others as they are. -/
theorem freezeAll_runOn : ∀ (es : List ExprId) (store : Store),
    (∀ e ∈ es, store.targetOf? e = none) →
    ∃ store', (freezeAll es).runOn store = (.ok ⟨⟩, store') ∧ store'.size = store.size ∧
      ∀ i, store'[i]? = if i ∈ es then store[i]?.map Cell.freeze else store[i]?
  | [], store, _ => ⟨store, rfl, rfl, fun i => by simp⟩
  | e :: rest, store, hrefs => by
    have hrest : ∀ x ∈ rest, (store.change e Cell.freeze).targetOf? x = none := by
      intro x hx
      rw [targetOf?_change_freeze]
      exact hrefs x (List.mem_cons_of_mem e hx)
    obtain ⟨store', hrun, hsize, hcells⟩ := freezeAll_runOn rest (store.change e Cell.freeze) hrest
    refine ⟨store', ?_, ?_, fun i => ?_⟩
    · rw [freezeAll, runOn_bind_ok (runOn_get store), hrefs e List.mem_cons_self]
      exact (runOn_bind_ok (runOn_set store _)).trans hrun
    · rw [hsize, Store.size_change]
    · rw [hcells i, Store.getElem?_change]
      by_cases hi : i = e
      · subst hi
        cases store[i]? <;> simp
      · simp [hi]

/-- If no reference can be reached, freezing freezes what can be reached and leaves the
rest as it is. -/
theorem freeze_runOn {store : Store} {roots : List ExprId}
    (h : ∀ e, Store.Reach store.membersOf roots e → store.targetOf? e = none) :
    ∃ store', (freeze roots).runOn store = (.ok ⟨⟩, store') ∧ store'.size = store.size ∧
      (∀ i, Store.Reach store.membersOf roots i → store'[i]? = store[i]?.map Cell.freeze) ∧
      ∀ i, ¬ Store.Reach store.membersOf roots i → store'[i]? = store[i]? := by
  obtain ⟨store', hrun, hsize, hcells⟩ := freezeAll_runOn (store.reachedFromLast roots) store
    fun e he => h e ((store.mem_reachedFromLast_iff roots e).1 he)
  refine ⟨store', ?_, hsize, fun i hi => ?_, fun i hi => ?_⟩
  · rw [freeze, runOn_bind_ok (runOn_get store), hrun]
  · rw [hcells i, if_pos ((store.mem_reachedFromLast_iff roots i).2 hi)]
  · rw [hcells i, if_neg fun hmem => hi ((store.mem_reachedFromLast_iff roots i).1 hmem)]

end Build

end Pegboard
