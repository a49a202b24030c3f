import Pegboard.Proofs.Expr.Freeze
import Pegboard.Proofs.Match.Derivation
import Pegboard.Regex.Engine

/-!
# Graphs without loose ends

A set of expressions is closed in a store if none of them is a reference or of no known
form and all their members are in the set.  A match that starts in a closed set can fail
in one way only: by nesting too deep (`matchAt_closed`).  So wherever an answer is
derived, a match gives it or nests too deep (`Derives.matchAt_or_tooDeep`).

`matchAt_iff_derives` puts together what matching in a closed set comes to: it computes
the judgement, and nests too deep at every depth exactly where nothing is derived.
-/

namespace Pegboard

namespace Store

/-- The expressions of a set are in the store and finished, and so are their members. -/
def Closed (store : Store) (S : ExprId → Prop) : Prop :=
  ∀ e, S e → ∃ cell, store[e]? = some cell ∧ cell.form.Finished ∧ ∀ m ∈ cell.members, S m

/-- An error of a mapped value is one of the value. -/
theorem map_eq_error {α β : Type} {f : α → β} {x : Except Error α} {err : Error}
    (h : x.map f = .error err) : x = .error err := by
  cases x with
  | error e => rw [Except.error.inj h]
  | ok a => cases h

section Errors

variable {S : ExprId → Prop} {step : ExprId → Int → Outcome}
  (hstep : ∀ e, S e → ∀ pos err, step e pos = .error err → err = .tooDeep)
include hstep

theorem matchAll_error : ∀ {members : List ExprId} {pos : Int} {err : Error},
    (∀ m ∈ members, S m) → matchAll step members pos = .error err → err = .tooDeep
  | [], _, _, _, h => by cases h
  | e :: rest, pos, err, hS, h => by
    simp only [matchAll] at h
    rcases he : step e pos with err' | _ | node <;> rw [he] at h
    · cases h
      exact hstep e (hS e List.mem_cons_self) pos err he
    · cases h
    · rcases hr : matchAll step rest node.stop with err' | _ | ⟨nodes, stop⟩ <;> simp only [hr] at h
      · cases h
        exact matchAll_error (fun m hm => hS m (List.mem_cons_of_mem e hm)) hr
      · cases h
      · cases h

theorem matchFirst_error : ∀ {members : List ExprId} {pos : Int} {err : Error},
    (∀ m ∈ members, S m) → matchFirst step members pos = .error err → err = .tooDeep
  | [], _, _, _, h => by cases h
  | e :: rest, pos, err, hS, h => by
    simp only [matchFirst] at h
    rcases he : step e pos with err' | _ | node <;> rw [he] at h
    · cases h
      exact hstep e (hS e List.mem_cons_self) pos err he
    · exact matchFirst_error (fun m hm => hS m (List.mem_cons_of_mem e hm)) h
    · cases h

theorem matchRepeat_error {e : ExprId} (hS : S e) : ∀ {rounds : Nat} {pos : Int} {err : Error},
    matchRepeat (step e) rounds pos = .error err → err = .tooDeep
  | 0, _, _, h => by cases h
  | rounds + 1, pos, err, h => by
    simp only [matchRepeat] at h
    rcases he : step e pos with err' | _ | node <;> rw [he] at h
    · cases h
      exact hstep e hS pos err he
    · cases h
    · dsimp only at h
      split at h
      · cases h
      · rcases hr : matchRepeat (step e) rounds node.stop with err' | nodes <;> simp only [hr] at h
        · cases h
          exact matchRepeat_error hS hr
        · cases h

theorem matchForm_error [Platform] {text : Text} {pos : Int} {form : Form} {err : Error}
    (hform : form.Finished) (hS : ∀ m ∈ form.members, S m)
    (h : matchForm text step pos form = .error err) : err = .tooDeep := by
  unfold matchForm at h
  split at h
  · cases h
  · cases h
  · exact matchAll_error hstep hS (map_eq_error h)
  · exact matchFirst_error hstep hS (map_eq_error h)
  · exact hstep _ (hS _ List.mem_cons_self) _ _ (map_eq_error h)
  · exact hstep _ (hS _ List.mem_cons_self) _ _ (map_eq_error h)
  · exact hstep _ (hS _ List.mem_cons_self) _ _ (map_eq_error h)
  · exact matchRepeat_error hstep (hS _ List.mem_cons_self) (map_eq_error h)
  · exact matchRepeat_error hstep (hS _ List.mem_cons_self) (map_eq_error h)
  · exact hform.elim
  · exact hform.elim

end Errors

variable {store : Store} {S : ExprId → Prop} {text : Text}

/-- A match inside a closed set fails by nesting too deep only. -/
theorem matchAt_closed [Platform] (hclosed : store.Closed S) : ∀ (depth : Nat) (e : ExprId), S e →
    ∀ (pos : Int) (err : Error), store.matchAt text depth e pos = .error err → err = .tooDeep
  | 0, _, _, _, _, h => by
    cases h
    rfl
  | depth + 1, e, he, pos, err, h => by
    obtain ⟨cell, hc, hform, hmembers⟩ := hclosed e he
    rw [matchAt_succ hc] at h
    exact matchForm_error (matchAt_closed hclosed depth) hform hmembers (map_eq_error h)

/-- At every depth a match gives the derived answer or nests too deep. -/
theorem Derives.matchAt_or_tooDeep [Platform] [Platform.Bounded] (hclosed : store.Closed S)
    {e : ExprId} (he : S e) {pos : Int} {r : Option Node} (h : Derives store text e pos r)
    (depth : Nat) :
    store.matchAt text depth e pos = .ok r ∨ store.matchAt text depth e pos = .error .tooDeep := by
  rcases hm : store.matchAt text depth e pos with err | r'
  · exact .inr (by rw [matchAt_closed hclosed depth e he pos err hm])
  · exact .inl (by rw [h.eq_of_matchAt hm])

/-- Where nothing is derived, a match nests too deep at every depth, and only there. -/
theorem tooDeep_iff_not_derives [Platform] [Platform.Bounded] (hclosed : store.Closed S)
    {e : ExprId} (he : S e) (pos : Int) :
    (∀ depth, store.matchAt text depth e pos = .error .tooDeep) ↔
      ∀ r, ¬ Derives store text e pos r := by
  constructor
  · intro hdeep r hr
    obtain ⟨depth, hd⟩ := hr.matchAt
    rw [hdeep depth] at hd
    cases hd
  · intro hnone depth
    rcases hm : store.matchAt text depth e pos with err | r
    · rw [matchAt_closed hclosed depth e he pos err hm]
    · exact absurd (derives_of_matchAt hm) (hnone r)

/-- Matching computes the judgement.  An expression of a closed set has one answer at most;
a match gives an answer at some depth if and only if it is derived; it then gives the same
answer at every greater depth; and it nests too deep at every depth if and only if no answer
is derived. -/
theorem matchAt_iff_derives [Platform] [Platform.Bounded] (hclosed : store.Closed S) {e : ExprId}
    (he : S e) (text : Text) (pos : Int) :
    (∀ r r', Derives store text e pos r → Derives store text e pos r' → r = r') ∧
    (∀ r, (∃ depth, store.matchAt text depth e pos = .ok r) ↔ Derives store text e pos r) ∧
    (∀ r depth depth', store.matchAt text depth e pos = .ok r → depth ≤ depth' →
      store.matchAt text depth' e pos = .ok r) ∧
    ((∀ depth, store.matchAt text depth e pos = .error .tooDeep) ↔
      ∀ r, ¬ Derives store text e pos r) := by
  refine ⟨fun r r' h h' => h.functional h', fun r => ⟨?_, Derives.matchAt⟩,
    fun r depth depth' h hle => matchAt_mono hle h, tooDeep_iff_not_derives hclosed he pos⟩
  rintro ⟨depth, hd⟩
  exact derives_of_matchAt hd

/-- The rules `a = "(" a ")" / "0"` and `b = b`. -/
def knot : Store :=
  #[⟨[], .literal ['(']⟩, ⟨[], .literal [')']⟩, ⟨[], .compound .sequence [0, 4, 1] true⟩,
    ⟨[], .literal ['0']⟩, ⟨['a'], .compound .choice [2, 3] true⟩,
    ⟨['b'], .compound .sequence [5] true⟩]

theorem closed_knot : knot.Closed (· < 6) := by
  intro e he
  match e, he with
  | 0, _ | 1, _ | 2, _ | 3, _ | 4, _ | 5, _ => exact ⟨_, rfl, trivial, by decide⟩

theorem tooDeep_knot [Platform] (text : Text) (pos : Int) : ∀ depth,
    knot.matchAt text depth 5 pos = .error .tooDeep := by
  intro depth
  induction depth with
  | zero => rfl
  | succ depth ih =>
    have hcell : knot[5]? = some ⟨['b'], .compound .sequence [5] true⟩ := rfl
    rw [matchAt_succ hcell, matchForm, matchAll, ih]
    rfl

attribute [local instance] Platform.builtIn

/-- The first rule of the knot has an answer at the start of a nested text, and the second
one has none. -/
theorem matchAt_iff_derives_knot : knot.Closed (· < 6) ∧
    (∃ node, Derives knot "((0))".toText 4 0 (some node) ∧ node.stop = 5) ∧
    ∀ r, ¬ Derives knot "((0))".toText 5 0 r := by
  refine ⟨closed_knot, ?_, ?_⟩
  · have hmatch : ∃ node, knot.matchAt "((0))".toText 9 4 0 = .ok (some node) ∧ node.stop = 5 :=
      ⟨_, rfl, rfl⟩
    obtain ⟨node, hnode, hstop⟩ := hmatch
    exact ⟨node, ((matchAt_iff_derives closed_knot (by decide) _ _).2.1 _).1 ⟨9, hnode⟩, hstop⟩
  · exact (matchAt_iff_derives closed_knot (by decide) _ _).2.2.2.1 (tooDeep_knot _ _)

end Store

end Pegboard
