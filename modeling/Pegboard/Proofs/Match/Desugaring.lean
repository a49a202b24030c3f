import Pegboard.Proofs.Match.Closed
import Pegboard.Proofs.Match.Ends
import Pegboard.Regex.Engine

/-!
# Quantifiers and lookahead in other words

What is optional is a choice between the member and nothing, and lookahead is a negation of a
negation.  If the member never matches without moving, a repetition is a choice between the
member with the repetition after it, and nothing.  A repetition with a least number of rounds is
then a sequence of so many copies of the member before a repetition of it.

`Desugaring` says that a graph has an expression put in other words like this.  A graph in which
this is done to any of its expressions matches to the same ends as before (`Desugared.endAlike`).
In one direction this goes by induction on the depth of a match in the graph as it was, in the
other one by induction on the depth of a match in the new graph, where more levels stand for one.
-/

namespace Pegboard

/-- Whether a wrapping repeats its member. -/
def Wrap.repeats : Wrap → Bool
  | star | plus _ => true
  | _ => false

/-- The form of other words for a wrapping of a member at `e`, and the forms that they need beside
it, for the expressions from `base` on. -/
def Wrap.words (e m base : ExprId) : Wrap → Form × List Form
  | optional => (.compound .choice [m, base] true, [.compound .sequence [] true])
  | lookahead => (.unary .negation base, [.unary .negation m])
  | negation => (.unary .negation m, [])
  | star => (.compound .choice [base, base + 1] true,
      [.compound .sequence [m, e] true, .compound .sequence [] true])
  | plus least => (.compound .sequence (List.replicate least.toNat m ++ [base]) true, [.unary .star m])

namespace Store

/-- The store with an expression put in other words, if it wraps a member. -/
def desugar (store : Store) (e : ExprId) : Store :=
  match store[e]? with
  | some ⟨name, .unary wrap m⟩ =>
    let (form, beside) := wrap.words e m store.size
    store.change e (fun _ => ⟨name, form⟩) ++ (beside.map (Cell.mk [])).toArray
  | _ => store

/-- An expression of the store has a form. -/
def HasForm (store : Store) (e : ExprId) (form : Form) : Prop :=
  ∃ cell, store[e]? = some cell ∧ cell.form = form

/-- A store has an expression that puts another one in other words, which wraps a member.
Members are related to those that stand for them. -/
inductive Desugaring (store : Store) (R : ExprId → ExprId → Prop) (m : ExprId) : Wrap → ExprId → Prop where
  | optional {e member empty : ExprId} {frozen frozen' : Bool} : R m member →
    HasForm store e (.compound .choice [member, empty] frozen) →
    HasForm store empty (.compound .sequence [] frozen') → Desugaring store R m .optional e
  | lookahead {e inner member : ExprId} : R m member →
    HasForm store e (.unary .negation inner) → HasForm store inner (.unary .negation member) →
    Desugaring store R m .lookahead e
  | star {e round empty member : ExprId} {frozen frozen' frozen'' : Bool} : R m member →
    HasForm store e (.compound .choice [round, empty] frozen) →
    HasForm store round (.compound .sequence [member, e] frozen') →
    HasForm store empty (.compound .sequence [] frozen'') → Desugaring store R m .star e
  | plus {e star member : ExprId} {copies : List ExprId} {frozen : Bool} {least : Int} : R m member →
    copies.length = least.toNat → (∀ copy ∈ copies, R m copy) →
    HasForm store e (.compound .sequence (copies ++ [star]) frozen) →
    HasForm store star (.unary .star member) → Desugaring store R m (.plus least) e

/-- No match of an expression in a text is empty. -/
def Moves [Platform] (store : Store) (text : Text) (m : ExprId) : Prop :=
  ∀ depth pos, 0 ≤ pos → ¬ StepEnds (store.matchAt text depth) m pos (some pos)

/-- Two expressions match to the same ends in a text, given depth enough. -/
def EndAlike [Platform] (store store' : Store) (text : Text) (e e' : ExprId) : Prop :=
  ∀ pos, 0 ≤ pos → ∀ stop,
    (∃ depth, StepEnds (store.matchAt text depth) e pos stop) ↔
      ∃ depth, StepEnds (store'.matchAt text depth) e' pos stop

/-- Related expressions of two stores have alike forms, or the second one puts the first one in
other words.  What repeats a member may only be put so if the member moves in the text. -/
def Desugared [Platform] (store store' : Store) (text : Text) (R : ExprId → ExprId → Prop) : Prop :=
  ∀ e e', R e e' →
    (∃ form form', HasForm store e form ∧ HasForm store' e' form' ∧ Form.Alike R form form') ∨
      ∃ wrap m, HasForm store e (.unary wrap m) ∧ Desugaring store' R m wrap e' ∧
        (wrap.repeats = true → Moves store text m)

variable {store store' : Store} {text : Text} {pos : Int} {stop : Option Int} {e e' m : ExprId}
  {R : ExprId → ExprId → Prop} {form : Form}

/-! ## Forms and ends -/

theorem Moves.ne [Platform] [Platform.Bounded] (h : Moves store text m) (hpos : 0 ≤ pos)
    {end_ : Int} (hends : Ends store text m pos (some end_)) : end_ ≠ pos := by
  rintro rfl
  obtain ⟨depth, hdepth⟩ := ends_iff_matchAt.1 hends
  exact h depth end_ hpos hdepth

theorem HasForm.ends [Platform] (h : HasForm store e form)
    (hends : EndsForm text (Ends store text) pos form stop) :
    Ends store text e pos stop := by
  obtain ⟨cell, hcell, rfl⟩ := h
  exact hends.ends hcell

theorem HasForm.stepEnds [Platform] [Platform.Bounded] (h : HasForm store e form) {depth : Nat}
    (hends : StepEnds (store.matchAt text (depth + 1)) e pos stop) :
    EndsForm text (StepEnds (store.matchAt text depth)) pos form stop := by
  obtain ⟨cell, hcell, rfl⟩ := h
  obtain ⟨cell', hcell', hform⟩ := hends.form
  obtain rfl := Option.some.inj (hcell.symm.trans hcell')
  exact hform

/-- A finished form is alike to itself, if its members are related to themselves. -/
theorem alike_of_finished (h : form.Finished) (hmembers : ∀ m ∈ form.members, R m m) :
    Form.Alike R form form := by
  cases form with
  | literal piece => exact .literal piece
  | regex pattern => exact .regex pattern
  | compound order members frozen =>
    exact .compound order frozen frozen (List.forall₂_same.2 fun m hm => hmembers m hm)
  | unary wrap m => exact .unary wrap (hmembers m (by simp [Form.members]))
  | reference | unknown => exact absurd h id

/-- Only what is finished comes to an end. -/
theorem EndsForm.alike [Platform] {T : ExprId → Int → Option Int → Prop}
    (h : EndsForm text T pos form stop) :
    Form.Alike Eq form form := by
  have hfinished : form.Finished := by cases h <;> exact trivial
  exact alike_of_finished hfinished fun _ _ => rfl

/-- What ends somewhere ends there by its form. -/
theorem HasForm.endsForm [Platform] [Platform.Bounded] (h : HasForm store e form)
    (hends : Ends store text e pos stop) :
    EndsForm text (Ends store text) pos form stop := by
  obtain ⟨depth, hdepth⟩ := ends_iff_matchAt.1 hends
  cases depth with
  | zero => exact absurd hdepth not_stepEnds_zero
  | succ depth =>
    have hform := h.stepEnds hdepth
    refine hform.mono ?_ (fun _ _ _ h => h.ends.le) hform.alike (Int.le_refl pos)
    rintro e _ rfl pos _ stop h
    exact h.ends

/-- A literal that is not empty moves. -/
theorem moves_literal [Platform] [Platform.Bounded] {piece : Text}
    (h : HasForm store e (.literal piece)) (hpiece : piece ≠ []) :
    Moves store text e := by
  intro depth pos _ hends
  have hlength := List.length_pos_iff.2 hpiece
  generalize hstop : some pos = stop at hends
  cases h.endsForm hends.ends with
  | literal =>
    split at hstop
    · have hsame := Option.some.inj hstop
      omega
    · cases hstop

/-! ## From an expression to its other words -/

section Forward

variable [Platform]
variable {T : ExprId → Int → Option Int → Prop}
  (hT : ∀ e e', R e e' → ∀ pos, 0 ≤ pos → ∀ stop, T e pos stop → Ends store' text e' pos stop)
  (hforward : ∀ e pos end_, T e pos (some end_) → pos ≤ end_)
include hT hforward

/-- A choice between one more round and nothing follows a repetition to its end. -/
theorem EndsChain.recursive (hmoves : ∀ pos, 0 ≤ pos → ¬ T m pos (some pos)) {round empty member : ExprId}
    {frozen frozen' frozen'' : Bool} (hm : R m member)
    (he : HasForm store' e (.compound .choice [round, empty] frozen))
    (hround : HasForm store' round (.compound .sequence [member, e] frozen'))
    (hempty : HasForm store' empty (.compound .sequence [] frozen'')) {rounds : Nat} {end_ : Int} (hpos : 0 ≤ pos)
    (h : EndsChain T m pos rounds end_) : Ends store' text e pos (some end_) := by
  induction h with
  | fail h =>
    have hfail := hround.ends (.sequence _ (.fail (hT _ _ hm _ hpos _ h)))
    exact he.ends (.choice _ (.later hfail (.first (hempty.ends (.sequence _ .nil)))))
  | still h => exact absurd h (hmoves _ hpos)
  | more h _ _ ih =>
    have hrest := ih (Int.le_trans hpos (hforward _ _ _ h))
    have hmore := hround.ends (.sequence _ (.cons (hT _ _ hm _ hpos _ h) (.cons hrest .nil)))
    exact he.ends (.choice _ (.first hmore))

/-- Copies of the member before a repetition follow a repetition to its end, if it has a round for
each of them. -/
theorem EndsChain.copies (hmoves : ∀ pos, 0 ≤ pos → ¬ T m pos (some pos)) {star member : ExprId}
    (hm : R m member) (hstar : HasForm store' star (.unary .star member)) {copies : List ExprId}
    (hcopies : ∀ copy ∈ copies, R m copy) {rounds : Nat} {end_ : Int} (hpos : 0 ≤ pos)
    (h : EndsChain T m pos rounds end_) :
    EndsAll (Ends store' text) (copies ++ [star]) pos (if rounds < copies.length then none else some end_) := by
  induction copies generalizing pos rounds with
  | nil =>
    rw [if_neg (by simp)]
    exact endsAll_singleton.2 (hstar.ends (.star (h.mono hT hforward hm hpos)))
  | cons copy copies ih =>
    obtain ⟨hcopy, hcopies⟩ := List.forall_mem_cons.1 hcopies
    cases h with
    | fail h =>
      rw [if_pos (by simp)]
      exact .fail (hT _ _ hcopy _ hpos _ h)
    | still h => exact absurd h (hmoves _ hpos)
    | more h _ hrest =>
      have hmore := ih hcopies (Int.le_trans hpos (hforward _ _ _ h)) hrest
      simp only [List.length_cons, Nat.add_lt_add_iff_right]
      exact .cons (hT _ _ hcopy _ hpos _ h) hmore

/-- Other words for an expression follow it to its end. -/
theorem Desugaring.ends {wrap : Wrap} (h : Desugaring store' R m wrap e')
    (hmoves : wrap.repeats = true → ∀ pos, 0 ≤ pos → ¬ T m pos (some pos)) (hpos : 0 ≤ pos)
    (hends : EndsForm text T pos (.unary wrap m) stop) : Ends store' text e' pos stop := by
  cases h with
  | optional hm he hempty =>
    cases hends with
    | @optional _ stop h =>
      cases stop with
      | none =>
        have hnothing : Ends store' text _ pos _ := hempty.ends (.sequence _ .nil)
        exact he.ends (.choice _ (.later (hT _ _ hm _ hpos _ h) (.first hnothing)))
      | some end_ => exact he.ends (.choice _ (.first (hT _ _ hm _ hpos _ h)))
  | lookahead hm he hinner =>
    cases hends with
    | @lookahead _ stop h =>
      have hnot := he.ends (.negation (hinner.ends (.negation (hT _ _ hm _ hpos _ h))))
      cases stop <;> exact hnot
  | star hm he hround hempty =>
    cases hends with
    | star h => exact h.recursive hT hforward (hmoves rfl) hm he hround hempty hpos
  | plus hm hlength hcopies he hstar =>
    cases hends with
    | plus _ h =>
      have hall := h.copies hT hforward (hmoves rfl) hm hstar hcopies hpos
      simp only [hlength, Int.lt_toNat] at hall
      exact he.ends (.sequence _ hall)

end Forward

/-! ## From other words back -/

section Backward

variable [Platform]
variable {T : ExprId → Int → Option Int → Prop}
  (hform : ∀ {e : ExprId} {form : Form} {pos : Int} {stop : Option Int},
    HasForm store' e form → T e pos stop → EndsForm text T pos form stop)
  (hT : ∀ e e', R e e' → ∀ pos, 0 ≤ pos → ∀ stop, T e' pos stop → Ends store text e pos stop)
  (hforward : ∀ e pos end_, T e pos (some end_) → pos ≤ end_)
include hform

/-- A sequence of nothing ends where it begins. -/
theorem eq_of_empty {empty : ExprId} {frozen : Bool} (h : HasForm store' empty (.compound .sequence [] frozen))
    (hends : T empty pos stop) : stop = some pos := by
  cases hform h hends with
  | sequence _ hall =>
    cases hall
    rfl

/-- What is optional or nothing ends where the member does, or where it begins. -/
theorem eq_of_choice {first empty : ExprId} {frozen : Bool}
    (hempty : HasForm store' empty (.compound .sequence [] frozen))
    (h : EndsFirst T [first, empty] pos stop) : ∃ stop', T first pos stop' ∧ stop = some (stop'.getD pos) := by
  cases h with
  | first h => exact ⟨_, h, rfl⟩
  | later h hrest => exact ⟨none, h, eq_of_empty hform hempty (endsFirst_singleton.1 hrest)⟩

include hT hforward

/-- Copies of the member before a repetition end where the repetition does, if it has a round for
each of them. -/
theorem EndsAll.chain [Platform.Bounded] (hmoves : Moves store text m) {star member : ExprId}
    (hm : R m member) (hstar : HasForm store' star (.unary .star member)) {copies : List ExprId}
    (hcopies : ∀ copy ∈ copies, R m copy) (hpos : 0 ≤ pos) (h : EndsAll T (copies ++ [star]) pos stop) :
    ∃ rounds end_, EndsChain (Ends store text) m pos rounds end_ ∧
      stop = if rounds < copies.length then none else some end_ := by
  induction copies generalizing pos with
  | nil =>
    cases hform hstar (endsAll_singleton.1 h) with
    | star hchain =>
      have hother : EndsChain (Ends store text) m _ _ _ :=
        hchain.mono (R := flip R) (fun e' e he => hT e e' he) hforward hm hpos
      refine ⟨_, _, hother, ?_⟩
      rw [if_neg (by simp)]
  | cons copy copies ih =>
    obtain ⟨hcopy, hcopies⟩ := List.forall_mem_cons.1 hcopies
    cases h with
    | fail h =>
      refine ⟨0, pos, .fail (hT _ _ hcopy _ hpos _ h), ?_⟩
      rw [if_pos (by simp)]
    | cons h hrest =>
      have hmore := hT _ _ hcopy _ hpos _ h
      obtain ⟨rounds, end_, hchain, hstop⟩ := ih hcopies (Int.le_trans hpos (hforward _ _ _ h)) hrest
      refine ⟨rounds + 1, end_, .more hmore (hmoves.ne hpos hmore) hchain, ?_⟩
      simp only [List.length_cons, Nat.add_lt_add_iff_right]
      exact hstop

/-- An expression follows other words for it to their end. -/
theorem Desugaring.ends_back [Platform.Bounded] {wrap : Wrap} (h : Desugaring store' R m wrap e')
    (he : HasForm store e (.unary wrap m)) (hR : R e e') (hmoves : wrap.repeats = true → Moves store text m)
    (hpos : 0 ≤ pos) (hends : ∀ {form}, HasForm store' e' form → EndsForm text T pos form stop) :
    Ends store text e pos stop := by
  cases h with
  | optional hm he' hempty =>
    cases hends he' with
    | choice _ hfirst =>
      obtain ⟨stop', hmember, rfl⟩ := eq_of_choice hform hempty hfirst
      exact he.ends (.optional (hT _ _ hm _ hpos _ hmember))
  | lookahead hm he' hinner =>
    cases hends he' with
    | negation hnot =>
      cases hform hinner hnot with
      | @negation _ stop hmember =>
        have hlook := he.ends (.lookahead (hT _ _ hm _ hpos _ hmember))
        cases stop <;> exact hlook
  | star hm he' hround hempty =>
    cases hends he' with
    | choice _ hfirst =>
      obtain ⟨stop', hone, rfl⟩ := eq_of_choice hform hempty hfirst
      cases hform hround hone with
      | sequence _ hall =>
        cases hall with
        | fail hmember => exact he.ends (.star (.fail (hT _ _ hm _ hpos _ hmember)))
        | cons hmember hrest =>
          have hmore := hT _ _ hm _ hpos _ hmember
          have hagain := hT _ _ hR _ (Int.le_trans hpos (hforward _ _ _ hmember)) _ (endsAll_singleton.1 hrest)
          -- A repetition never fails, so this one goes on to an end.
          cases he.endsForm hagain with
          | star hchain => exact he.ends (.star (.more hmore ((hmoves rfl).ne hpos hmore) hchain))
  | plus hm hlength hcopies he' hstar =>
    cases hends he' with
    | sequence _ hall =>
      obtain ⟨rounds, end_, hchain, rfl⟩ := hall.chain hform hT hforward (hmoves rfl) hm hstar hcopies hpos
      simp only [hlength, Int.lt_toNat]
      exact he.ends (.plus _ hchain)

end Backward

/-! ## Graphs in other words -/

/-- The match of an expression comes to an end at a depth below the given one. -/
def EndsBelow [Platform] (store : Store) (text : Text) (depth : Nat) (e : ExprId) (pos : Int)
    (stop : Option Int) : Prop :=
  ∃ depth' < depth, StepEnds (store.matchAt text depth') e pos stop

theorem EndsBelow.le [Platform] [Platform.Bounded] {depth : Nat} {end_ : Int}
    (h : EndsBelow store text depth e pos (some end_)) :
    pos ≤ end_ := by
  obtain ⟨depth', -, hends⟩ := h
  exact hends.ends.le

theorem HasForm.endsBelow [Platform] [Platform.Bounded] (h : HasForm store e form) {depth : Nat}
    (hends : StepEnds (store.matchAt text depth) e pos stop) :
    EndsForm text (EndsBelow store text depth) pos form stop := by
  cases depth with
  | zero => exact absurd hends not_stepEnds_zero
  | succ depth =>
    have hform := h.stepEnds hends
    refine hform.mono ?_ (fun _ _ _ h => h.ends.le) hform.alike (Int.le_refl pos)
    rintro e _ rfl pos _ stop h
    exact ⟨depth, Nat.lt_succ_self depth, h⟩

/-- What ends below a depth ends there by its form, and its members end below that depth too. -/
theorem HasForm.endsForm_of_below [Platform] [Platform.Bounded] (h : HasForm store e form)
    {depth : Nat} (hends : EndsBelow store text depth e pos stop) :
    EndsForm text (EndsBelow store text depth) pos form stop := by
  obtain ⟨depth', hlt, hends⟩ := hends
  have hform := h.endsBelow hends
  refine hform.mono ?_ (fun _ _ _ h => h.le) hform.alike (Int.le_refl pos)
  rintro e _ rfl pos _ stop ⟨depth'', hlt', hends⟩
  exact ⟨depth'', Nat.lt_trans hlt' hlt, hends⟩

section Desugared

variable [Platform]
variable (h : Desugared store store' text R)
include h

theorem Desugared.ends_of_stepEnds [Platform.Bounded] : ∀ (depth : Nat)
    (e e' : ExprId), R e e' → ∀ pos, 0 ≤ pos →
    ∀ stop, StepEnds (store.matchAt text depth) e pos stop → Ends store' text e' pos stop := by
  intro depth
  induction depth with
  | zero => exact fun e e' _ pos _ stop h => absurd h not_stepEnds_zero
  | succ depth ih =>
    intro e e' hR pos hpos stop hends
    have hform {form : Form} (he : HasForm store e form) := he.stepEnds hends
    rcases h e e' hR with ⟨form, form', he, he', halike⟩ | ⟨wrap, m, he, hother, hmoves⟩
    · exact he'.ends ((hform he).mono ih (fun _ _ _ h => h.ends.le) halike hpos)
    · exact hother.ends ih (fun _ _ _ h => h.ends.le) (fun hrepeats => hmoves hrepeats depth) hpos (hform he)

theorem Desugared.ends_of_stepEnds_other [Platform.Bounded] : ∀ (depth : Nat)
    (e e' : ExprId), R e e' → ∀ pos, 0 ≤ pos →
    ∀ stop, StepEnds (store'.matchAt text depth) e' pos stop → Ends store text e pos stop := by
  intro depth
  induction depth using Nat.strongRecOn with
  | _ depth ih =>
    intro e e' hR pos hpos stop hends
    -- Other words take more levels than one, so what is below this depth counts, and not one level below.
    have hbelow : ∀ e e', R e e' → ∀ pos, 0 ≤ pos → ∀ stop, EndsBelow store' text depth e' pos stop →
        Ends store text e pos stop := by
      rintro e e' hR pos hpos stop ⟨depth', hlt, hends⟩
      exact ih depth' hlt e e' hR pos hpos stop hends
    rcases h e e' hR with ⟨form, form', he, he', halike⟩ | ⟨wrap, m, he, hother, hmoves⟩
    · have hform := (he'.endsBelow hends).mono (R := flip R) (fun e' e hR => hbelow e e' hR)
        (fun _ _ _ h => h.le) halike.flip hpos
      exact he.ends hform
    · exact hother.ends_back (fun hform h => hform.endsForm_of_below h) hbelow (fun _ _ _ h => h.le) he hR hmoves hpos
        fun hform => hform.endsBelow hends

/-- Related expressions end alike. -/
theorem Desugared.endAlike [Platform.Bounded] (hR : R e e') : EndAlike store store' text e e' := by
  intro pos hpos stop
  constructor
  · rintro ⟨depth, hends⟩
    exact ends_iff_matchAt.1 (h.ends_of_stepEnds depth e e' hR pos hpos stop hends)
  · rintro ⟨depth, hends⟩
    exact ends_iff_matchAt.1 (h.ends_of_stepEnds_other depth e e' hR pos hpos stop hends)

end Desugared

/-! ## One expression in other words -/

section Desugar

variable {name : Text} {wrap : Wrap} (hcell : store[e]? = some ⟨name, .unary wrap m⟩)
include hcell

theorem getElem?_desugar (x : ExprId) : (store.desugar e)[x]? =
    if x < store.size then
      if x = e then some ⟨name, (wrap.words e m store.size).1⟩ else store[x]?
    else (wrap.words e m store.size).2[x - store.size]?.map (Cell.mk []) := by
  have hdesugar : store.desugar e = store.change e (fun _ => ⟨name, (wrap.words e m store.size).1⟩) ++
      ((wrap.words e m store.size).2.map (Cell.mk [])).toArray := by
    unfold desugar
    rw [hcell]
  rw [hdesugar, Array.getElem?_append, size_change, getElem?_change]
  split
  · split
    · next hx => rw [hx, hcell]; rfl
    · rfl
  · rw [List.getElem?_toArray, List.getElem?_map]

theorem hasForm_words : HasForm (store.desugar e) e (wrap.words e m store.size).1 := by
  have hlt : e < store.size := (Array.getElem?_eq_some_iff.1 hcell).1
  refine ⟨⟨name, (wrap.words e m store.size).1⟩, ?_, rfl⟩
  rw [getElem?_desugar hcell, if_pos hlt, if_pos rfl]

theorem hasForm_beside {k : Nat} (h : (wrap.words e m store.size).2[k]? = some form) :
    HasForm (store.desugar e) (store.size + k) form := by
  refine ⟨⟨[], form⟩, ?_, rfl⟩
  rw [getElem?_desugar hcell, if_neg (Nat.not_lt.2 (Nat.le_add_right _ _)), Nat.add_sub_cancel_left, h]
  rfl

theorem desugaring_desugar (hwrap : wrap ≠ .negation) (hm : R m m) :
    Desugaring (store.desugar e) R m wrap e := by
  have hhere := hasForm_words hcell
  have hbeside (k : Nat) {form : Form} := @hasForm_beside _ _ _ form _ _ hcell k
  cases wrap with
  | optional => exact .optional hm hhere (hbeside 0 rfl)
  | lookahead => exact .lookahead hm hhere (hbeside 0 rfl)
  | negation => exact absurd rfl hwrap
  | star => exact .star hm hhere (hbeside 0 rfl) (hbeside 1 rfl)
  | plus least =>
    refine .plus hm List.length_replicate (fun copy hcopy => ?_) hhere (hbeside 0 rfl)
    rwa [List.eq_of_mem_replicate hcopy]

/-- Other expressions stay as they are. -/
theorem HasForm.desugar {x : ExprId} (h : HasForm store x form) (hx : x ≠ e) :
    HasForm (store.desugar e) x form := by
  obtain ⟨cell, hstore, rfl⟩ := h
  have hlt : x < store.size := (Array.getElem?_eq_some_iff.1 hstore).1
  refine ⟨cell, ?_, rfl⟩
  rw [getElem?_desugar hcell, if_pos hlt, if_neg hx, hstore]

end Desugar

/-- What wraps no member has no other words. -/
theorem desugar_of_not_wraps (h : ∀ wrap m, ¬ HasForm store e (.unary wrap m)) : store.desugar e = store := by
  unfold desugar
  split
  · next name wrap m hcell => exact absurd ⟨_, hcell, rfl⟩ (h wrap m)
  · rfl

/-- In a graph without loose ends, any expression may be put in other words, if what repeats a
member repeats one that moves. -/
theorem desugared_desugar [Platform] {S : ExprId → Prop} (hclosed : store.Closed S)
    (hmoves : ∀ wrap m, HasForm store e (.unary wrap m) → wrap.repeats = true → Moves store text m) :
    Desugared store (store.desugar e) text fun x y => x = y ∧ S x := by
  rintro x _ ⟨rfl, hx⟩
  obtain ⟨⟨name, form⟩, hcell, hfinished, hmembers⟩ := hclosed x hx
  have halike : Form.Alike (fun x y => x = y ∧ S x) form form :=
    alike_of_finished hfinished fun m hm => ⟨rfl, hmembers m hm⟩
  have hform : HasForm store x form := ⟨_, hcell, rfl⟩
  by_cases hwraps : ∃ wrap m, HasForm store e (.unary wrap m)
  · obtain ⟨wrap, m, ⟨name', _⟩, hwrap, rfl⟩ := hwraps
    by_cases hxe : x = e
    · subst hxe
      obtain ⟨rfl, rfl⟩ := Cell.mk.inj (Option.some.inj (hcell.symm.trans hwrap))
      by_cases hnot : wrap = .negation
      · subst hnot
        exact .inl ⟨_, _, hform, hasForm_words hcell, halike⟩
      · have hm : S m := hmembers m (List.mem_singleton_self m)
        exact .inr ⟨wrap, m, hform, desugaring_desugar hcell hnot ⟨rfl, hm⟩, hmoves wrap m hform⟩
    · exact .inl ⟨_, _, hform, hform.desugar hwrap hxe, halike⟩
  · rw [desugar_of_not_wraps fun wrap m h => hwraps ⟨wrap, m, h⟩]
    exact .inl ⟨_, _, hform, hform, halike⟩

/-! ## Quantifiers and lookahead -/

theorem Desugaring.mono {R' : ExprId → ExprId → Prop} {wrap : Wrap} (h : Desugaring store R m wrap e)
    (hR : ∀ x, R m x → R' m x) : Desugaring store R' m wrap e := by
  cases h with
  | optional hm he hempty => exact .optional (hR _ hm) he hempty
  | lookahead hm he hinner => exact .lookahead (hR _ hm) he hinner
  | star hm he hround hempty => exact .star (hR _ hm) he hround hempty
  | plus hm hlength hcopies he hstar =>
    exact .plus (hR _ hm) hlength (fun copy hcopy => hR _ (hcopies copy hcopy)) he hstar

/-- In a graph without loose ends, other words for an expression end where the expression does, if
what repeats a member repeats one that moves in the text.  A graph in which expressions are put in
other words matches to the same ends as before, whatever is shared in it and however it is
numbered.  So does a graph with any one of its expressions put so in its place. -/
theorem endAlike_desugared [Platform] [Platform.Bounded] :
    (∀ (store : Store) (S : ExprId → Prop) (text : Text), store.Closed S → ∀ e m wrap, S m →
      HasForm store e (.unary wrap m) → (wrap.repeats = true → Moves store text m) →
      ∀ e', Desugaring store Eq m wrap e' → EndAlike store store text e e') ∧
    (∀ (store store' : Store) (text : Text) (R : ExprId → ExprId → Prop),
      Desugared store store' text R → ∀ e e', R e e' → EndAlike store store' text e e') ∧
    ∀ (store : Store) (S : ExprId → Prop) (text : Text) (e : ExprId), store.Closed S →
      (∀ wrap m, HasForm store e (.unary wrap m) → wrap.repeats = true → Moves store text m) →
      ∀ x, S x → EndAlike store (store.desugar e) text x x := by
  refine ⟨?_, ?_, ?_⟩
  · intro store S text hclosed e m wrap hm he hmoves e' hother
    -- Everything in the set stands for itself, and the other words for the expression.
    let R : ExprId → ExprId → Prop := fun x y => (x = y ∧ S x) ∨ (x = e ∧ y = e')
    have hwords : Desugaring store R m wrap e' := hother.mono fun x hx => .inl ⟨hx, hm⟩
    have hdesugared : Desugared store store text R := by
      rintro x _ (⟨rfl, hx⟩ | ⟨rfl, rfl⟩)
      · obtain ⟨cell, hcell, hfinished, hmembers⟩ := hclosed x hx
        have hform : HasForm store x cell.form := ⟨cell, hcell, rfl⟩
        exact .inl ⟨_, _, hform, hform, alike_of_finished hfinished fun m hm => .inl ⟨rfl, hmembers m hm⟩⟩
      · exact .inr ⟨wrap, m, he, hwords, hmoves⟩
    exact hdesugared.endAlike (.inr ⟨rfl, rfl⟩)
  · intro store store' text R h e e' hR
    exact h.endAlike hR
  · intro store S text e hclosed hmoves x hx
    exact (desugared_desugar hclosed hmoves).endAlike ⟨rfl, hx⟩

/-- The rule `r = "a"* "b" r / !"b"`, and other words for its repetition. -/
def laps : Store :=
  #[⟨[], .literal ['a']⟩, ⟨[], .unary .star 0⟩, ⟨[], .literal ['b']⟩,
    ⟨[], .compound .sequence [1, 2, 4] true⟩, ⟨['r'], .compound .choice [3, 5] true⟩,
    ⟨[], .unary .negation 2⟩, ⟨['s'], .compound .choice [7, 8] true⟩,
    ⟨[], .compound .sequence [0, 6] true⟩, ⟨[], .compound .sequence [] true⟩]

theorem closed_laps : laps.Closed (· < 9) := by
  intro e he
  match e, he with
  | 0, _ | 1, _ | 2, _ | 3, _ | 4, _ | 5, _ | 6, _ | 7, _ | 8, _ => exact ⟨_, rfl, trivial, by decide⟩

attribute [local instance] Platform.builtIn

/-- The other words end where the repetition of the rule does, and the rule ends where it did if its
repetition is put in them. -/
theorem endAlike_desugared_laps : laps.Closed (· < 9) ∧ Moves laps "aabab".toText 0 ∧
    Desugaring laps Eq 0 .star 6 ∧ (∃ depth, StepEnds (laps.matchAt "aabab".toText depth) 6 0 (some 2)) ∧
    (∃ depth, StepEnds ((laps.desugar 1).matchAt "aabab".toText depth) 4 0 (some 5)) ∧
    ∃ depth, StepEnds ((laps.desugar 1).matchAt "aabab".toText depth) 5 2 none := by
  have hmoves : Moves laps "aabab".toText 0 := moves_literal ⟨_, rfl, rfl⟩ (List.cons_ne_nil _ _)
  have hmember : ∀ wrap m, HasForm laps 1 (.unary wrap m) → wrap.repeats = true →
      Moves laps "aabab".toText m := by
    rintro wrap m ⟨cell, hcell, hform⟩ -
    cases hcell
    cases hform
    exact hmoves
  have hwords : Desugaring laps Eq 0 .star 6 :=
    .star rfl ⟨_, rfl, rfl⟩ ⟨_, rfl, rfl⟩ ⟨_, rfl, rfl⟩
  have hstar : StepEnds (laps.matchAt "aabab".toText 3) 1 0 (some 2) := ⟨_, rfl, rfl⟩
  have hrule : StepEnds (laps.matchAt "aabab".toText 9) 4 0 (some 5) := ⟨_, rfl, rfl⟩
  have hnot : StepEnds (laps.matchAt "aabab".toText 3) 5 2 none := ⟨_, rfl, rfl⟩
  obtain ⟨hpointwise, hgraphs, hplace⟩ := endAlike_desugared
  refine ⟨closed_laps, hmoves, hwords, ?_, ?_, ?_⟩
  · have halike := hpointwise laps _ _ closed_laps 1 0 .star (by decide) ⟨_, rfl, rfl⟩ (fun _ => hmoves) 6 hwords
    exact (halike 0 (Int.le_refl 0) _).1 ⟨3, hstar⟩
  · have halike := hgraphs _ _ _ _ (desugared_desugar closed_laps hmember) 4 4 ⟨rfl, by decide⟩
    exact (halike 0 (Int.le_refl 0) _).1 ⟨9, hrule⟩
  · have halike := hplace _ _ _ _ closed_laps hmember 5 (by decide)
    exact (halike 2 (by decide) _).1 ⟨3, hnot⟩

end Store

end Pegboard
