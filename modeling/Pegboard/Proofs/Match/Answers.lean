import Pegboard.Proofs.Expr.Freeze
import Pegboard.Proofs.Match.Step

/-!
# Levels that give an answer

A level of a match gives an answer, a node or nothing, if its members do wherever it may
match them.  It matches them from its own offset on, and not past the end of the text
unless it stands there.  So much suffices for any form (`matchForm_answers`).  Where more
is known of the first member of a sequence, less is asked of the others
(`matchForm_sequence_answers`).
-/

namespace Pegboard.Store

/-- The expression gives an answer at the offset. -/
def Answers (step : ExprId → Int → Outcome) (e : ExprId) (pos : Int) : Prop := ∃ o, step e pos = .ok o

/-- A value that there is can be mapped. -/
theorem map_answers {α β : Type} {x : Except Error α} (f : α → β) (h : ∃ a, x = .ok a) :
    ∃ b, x.map f = .ok b := by
  obtain ⟨a, rfl⟩ := h
  exact ⟨f a, rfl⟩

variable {text : Text} {step : ExprId → Int → Outcome}

/-- Members are matched one after the other if the first one answers, and the others can be
matched from where it ends. -/
theorem matchAll_cons_answers {e : ExprId} {rest : List ExprId} {pos : Int} (he : Answers step e pos)
    (hrest : ∀ node, step e pos = .ok (some node) → ∃ r, matchAll step rest node.stop = .ok r) :
    ∃ r, matchAll step (e :: rest) pos = .ok r := by
  obtain ⟨o, ho⟩ := he
  rw [matchAll, ho]
  cases o with
  | none => exact ⟨_, rfl⟩
  | some node =>
    obtain ⟨r, hr⟩ := hrest node ho
    dsimp only
    rw [hr]
    rcases r with _ | ⟨nodes, stop⟩ <;> exact ⟨_, rfl⟩

theorem matchFirst_answers : ∀ {members : List ExprId} {pos : Int},
    (∀ m ∈ members, Answers step m pos) → ∃ o, matchFirst step members pos = .ok o
  | [], _, _ => ⟨_, rfl⟩
  | e :: rest, pos, h => by
    obtain ⟨o, ho⟩ := h e List.mem_cons_self
    rw [matchFirst, ho]
    cases o with
    | none => exact matchFirst_answers fun m hm => h m (List.mem_cons_of_mem e hm)
    | some node => exact ⟨_, rfl⟩

/-- A repetition goes on if its member answers, and it can be repeated from where that moved
to. -/
theorem matchRepeat_succ_answers {e : ExprId} {rounds : Nat} {pos : Int} (he : Answers step e pos)
    (hrest : ∀ node, step e pos = .ok (some node) → node.stop ≠ pos →
      ∃ nodes, matchRepeat (step e) rounds node.stop = .ok nodes) :
    ∃ nodes, matchRepeat (step e) (rounds + 1) pos = .ok nodes := by
  obtain ⟨o, ho⟩ := he
  rw [matchRepeat, ho]
  cases o with
  | none => exact ⟨_, rfl⟩
  | some node =>
    dsimp only
    split
    · exact ⟨_, rfl⟩
    · next hmoved =>
      obtain ⟨nodes, hnodes⟩ := hrest node ho hmoved
      rw [hnodes]
      exact ⟨_, rfl⟩

section Spans

variable (hs : Spans text step)
include hs

theorem matchAll_answers : ∀ {members : List ExprId} {pos : Int},
    (∀ m ∈ members, ∀ pos', EndsFrom text pos pos' → Answers step m pos') →
    ∃ r, matchAll step members pos = .ok r
  | [], _, _ => ⟨_, rfl⟩
  | e :: rest, pos, h => by
    refine matchAll_cons_answers (h e List.mem_cons_self pos (.refl text pos)) fun node hnode => ?_
    have hends := (hs e pos node hnode).2
    exact matchAll_answers fun m hm pos' hends' =>
      h m (List.mem_cons_of_mem e hm) pos' (hends.trans hends')

theorem matchRepeat_answers {e : ExprId} : ∀ {rounds : Nat} {pos : Int},
    (∀ pos', EndsFrom text pos pos' → Answers step e pos') →
    ∃ nodes, matchRepeat (step e) rounds pos = .ok nodes
  | 0, _, _ => ⟨_, rfl⟩
  | rounds + 1, pos, h => by
    refine matchRepeat_succ_answers (h pos (.refl text pos)) fun node hnode _ => ?_
    have hends := (hs e pos node hnode).2
    exact matchRepeat_answers fun pos' hends' => h pos' (hends.trans hends')

/-- A form gives an answer if its members do from the offset on. -/
theorem matchForm_answers [Platform] {form : Form} (hform : form.Finished) {pos : Int}
    (h : ∀ m ∈ form.members, ∀ pos', EndsFrom text pos pos' → Answers step m pos') :
    ∃ o, matchForm text step pos form = .ok o := by
  have hhere : ∀ m ∈ form.members, Answers step m pos := fun m hm => h m hm pos (.refl text pos)
  unfold matchForm
  split
  · exact ⟨_, rfl⟩
  · exact ⟨_, rfl⟩
  · exact map_answers _ (matchAll_answers hs h)
  · exact map_answers _ (matchFirst_answers hhere)
  · exact map_answers _ (hhere _ List.mem_cons_self)
  · exact map_answers _ (hhere _ List.mem_cons_self)
  · exact map_answers _ (hhere _ List.mem_cons_self)
  · exact map_answers _ (matchRepeat_answers hs (h _ List.mem_cons_self))
  · exact map_answers _ (matchRepeat_answers hs (h _ List.mem_cons_self))
  · exact hform.elim
  · exact hform.elim

/-- A sequence gives an answer if its first member does, and the others do from where that
one ends. -/
theorem matchForm_sequence_answers [Platform] {e : ExprId} {rest : List ExprId} {frozen : Bool}
    {pos : Int} (he : Answers step e pos)
    (h : ∀ node, step e pos = .ok (some node) → ∀ m ∈ rest, ∀ pos', EndsFrom text node.stop pos' →
      Answers step m pos') :
    ∃ o, matchForm text step pos (.compound .sequence (e :: rest) frozen) = .ok o := by
  rw [matchForm]
  exact map_answers _ (matchAll_cons_answers he fun node hnode => matchAll_answers hs (h node hnode))

end Spans

end Pegboard.Store
