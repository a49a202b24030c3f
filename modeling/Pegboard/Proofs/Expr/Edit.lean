import Pegboard.Expr.Edit
import Pegboard.Proofs.Expr.Link
import Pegboard.Regex.Engine

/-!
# What no edit changes

Edits make and change expressions, and any of them can fail halfway.  Two things are final all
the same: a member list that is closed, and the slot of a reference that is attached.  A form
with nothing open is settled, and `Store.Keeps` says that settled forms are the same in two
stores.  Each step of a building keeps them, whether it fails or not, so every edit does
(`perform_keeps`), and so does a run of edits (`keeps_afterAll`).

An edit that tries to change a closed member list fails, by inserting as well as by linking,
and an insertion or attachment that fails changes nothing at all (`settled_after_edits`).
-/

namespace Pegboard

/-- Nothing about the form is open: a member list is closed and a reference has its slot.  The
member of a wrapping can always be replaced. -/
def Form.IsSettled : Form → Prop
  | .compound _ _ frozen => frozen = true
  | .reference _ place => place.isSome = true
  | .unary _ _ => False
  | .literal _ | .regex _ | .unknown => True

namespace Store

/-- The form of an expression of the store. -/
def formOf? (store : Store) (e : ExprId) : Option Form := store[e]?.map Cell.form

/-- Every settled form is still there, at the same expression. -/
def Keeps (store store' : Store) : Prop :=
  ∀ e form, store.formOf? e = some form → form.IsSettled → store'.formOf? e = some form

theorem Keeps.refl (store : Store) : store.Keeps store := fun _ _ h _ => h

theorem Keeps.trans {a b c : Store} (h : a.Keeps b) (h' : b.Keeps c) : a.Keeps c :=
  fun e form hform hsettled => h' e form (h e form hform hsettled) hsettled

theorem keeps_push (store : Store) (cell : Cell) : store.Keeps (store.push cell) := by
  intro e form hform _
  obtain ⟨old, hold, hcell⟩ := Option.map_eq_some_iff.1 hform
  have hlt : e < store.size := (Array.getElem?_eq_some_iff.1 hold).1
  rw [formOf?, Array.getElem?_push_lt hlt, ← Array.getElem?_eq_getElem hlt, hold, Option.map_some, hcell]

/-- A change that leaves the form of its expression as it is, if that is settled. -/
theorem keeps_change {store : Store} {e : ExprId} {f : Cell → Cell}
    (h : ∀ cell, store[e]? = some cell → cell.form.IsSettled → (f cell).form = cell.form) :
    store.Keeps (store.change e f) := by
  intro i form hform hsettled
  rw [formOf?, getElem?_change]
  split
  · next hi =>
    obtain ⟨cell, hcell, rfl⟩ := Option.map_eq_some_iff.1 hform
    rw [hcell, Option.map_some, Option.map_some, h cell (hi ▸ hcell) hsettled]
  · exact hform

/-- An expression whose form is not settled can be overwritten. -/
theorem keeps_set {store : Store} {e : ExprId} {old : Cell} (hold : store[e]? = some old)
    (hopen : ¬ old.form.IsSettled) (cell : Cell) : store.Keeps (store.setIfInBounds e cell) := by
  have hchange : store.setIfInBounds e cell = store.change e fun _ => cell := by
    rw [change, hold]
  rw [hchange]
  refine keeps_change fun cell' hcell' hsettled => absurd hsettled ?_
  obtain rfl := Option.some.inj (hold.symm.trans hcell')
  exact hopen

end Store

/-! ## Steps -/

namespace Build

variable {α β : Type}

/-- A step keeps settled forms, whether it fails or not. -/
def Keeps (step : Build α) : Prop := ∀ store : Store, store.Keeps (step.runOn store).2

theorem keeps_pure (a : α) : (pure a : Build α).Keeps := Store.Keeps.refl

theorem keeps_throw (e : Error) : (throw e : Build α).Keeps := Store.Keeps.refl

/-- A step after another one runs from the store that the first one left. -/
theorem keeps_bind {step : Build α} {next : α → Build β} (h : step.Keeps) (h' : ∀ a, (next a).Keeps) :
    (step >>= next).Keeps := by
  intro store
  have hstep := h store
  rw [runOn_bind]
  split
  · next a store' hrun =>
    rw [hrun] at hstep
    exact hstep.trans (h' a store')
  · next e store' hrun =>
    rw [hrun] at hstep
    exact hstep

theorem keeps_map {step : Build α} (h : step.Keeps) (f : α → β) : (f <$> step).Keeps :=
  keeps_bind h fun a => keeps_pure (f a)

theorem runOn_map (f : α → β) {step : Build α} {store store' : Store} {result : Except Error α}
    (h : step.runOn store = (result, store')) : (f <$> step).runOn store = (result.map f, store') := by
  cases result with
  | ok a => exact runOn_bind_ok h
  | error err => exact runOn_bind_error h

theorem runOn_map_error {f : α → β} {step : Build α} {store store' : Store} {err : Error}
    (h : (f <$> step).runOn store = (.error err, store')) : step.runOn store = (.error err, store') := by
  rcases hstep : step.runOn store with ⟨err' | a, store''⟩
  · rw [runOn_map f hstep] at h
    cases h
    rfl
  · rw [runOn_map f hstep] at h
    cases h

/-- A step that looks at the store first. -/
theorem keeps_of_get {next : Store → Build α} (h : ∀ store : Store, store.Keeps ((next store).runOn store).2) :
    (get >>= next).Keeps := by
  intro store
  rw [runOn_bind_ok (runOn_get store)]
  exact h store

theorem keeps_add (cell : Cell) : (add cell).Keeps := fun store => store.keeps_push cell

theorem keeps_attach (e : ExprId) (place : Place) : (attach e place).Keeps := by
  refine keeps_of_get fun store => ?_
  split
  · next hcell => exact Store.keeps_set hcell (by simp [Form.IsSettled]) _
  · exact .refl store
  · exact .refl store

theorem keeps_attachMembers (parent : ExprId) : ∀ (members : List ExprId) (slot : Nat),
    (attachMembers parent slot members).Keeps
  | [], _ => keeps_pure ()
  | e :: rest, slot => keeps_bind (keeps_attach e _) fun _ => keeps_attachMembers parent rest (slot + 1)

theorem keeps_compound (name : Text) (order : Order) (members : List ExprId) :
    (compound name order members).Keeps :=
  keeps_bind (keeps_add _) fun e => keeps_bind (keeps_attachMembers e members 0) fun _ => keeps_pure e

theorem keeps_unary (name : Text) (wrap : Wrap) (member : ExprId) : (unary name wrap member).Keeps :=
  keeps_bind (keeps_add _) fun e => keeps_bind (keeps_attach member _) fun _ => keeps_pure e

theorem keeps_insert (e : ExprId) (index : Int) (member : ExprId) : (insert e index member).Keeps := by
  refine keeps_of_get fun store => ?_
  split
  · next hcell => exact Store.keeps_set hcell (by simp [Form.IsSettled]) _
  · exact .refl store

theorem keeps_rename (e : ExprId) (name : Text) : (rename e name).Keeps :=
  fun _ => Store.keeps_change fun _ _ _ => rfl

/-- Freezing closes open member lists and does nothing to closed ones. -/
theorem keeps_freezeAll : ∀ es : List ExprId, (freezeAll es).Keeps
  | [] => keeps_pure ()
  | e :: rest => by
    refine keeps_of_get fun store => ?_
    split
    · exact .refl store
    · rw [runOn_bind_ok (runOn_set store _)]
      refine Store.Keeps.trans (Store.keeps_change fun cell _ hsettled => ?_) (keeps_freezeAll rest _)
      obtain ⟨name, form⟩ := cell
      cases form with
      | compound order members frozen =>
        obtain rfl : frozen = true := hsettled
        rfl
      | _ => rfl

theorem keeps_freeze (roots : List ExprId) : (freeze roots).Keeps :=
  keeps_of_get fun store => keeps_freezeAll (store.reachedFromLast roots) store

theorem keeps_fill (target : Text) (place : Option Place) (e : ExprId) : (fill target place e).Keeps := by
  refine keeps_of_get fun store => ?_
  split
  · exact .refl store
  · split
    · exact .refl store
    · exact .refl store
    · next hparent _ =>
      split
      · exact .refl store
      · exact Store.keeps_set hparent (by simp [Form.IsSettled]) _
    · next hparent => exact Store.keeps_set hparent (by simp [Form.IsSettled]) _
    · exact .refl store

/-- Looking for missing targets changes nothing. -/
theorem checkTargets_snd (rules : Rules) : ∀ (pending : List ExprId) (store : Store),
    ((checkTargets rules pending).runOn store).2 = store
  | [], _ => rfl
  | e :: rest, store => by
    rw [checkTargets, runOn_bind_ok (runOn_get store)]
    split
    · split
      · rfl
      · exact checkTargets_snd rules rest store
    · exact checkTargets_snd rules rest store

theorem keeps_checkTargets (rules : Rules) (pending : List ExprId) : (checkTargets rules pending).Keeps := by
  intro store
  rw [checkTargets_snd]
  exact .refl store

theorem keeps_fillAll (rules : Rules) : ∀ pending : List ExprId, (fillAll rules pending).Keeps
  | [] => keeps_pure ()
  | e :: rest => by
    refine keeps_of_get fun store => ?_
    split
    · split
      · exact keeps_bind (keeps_fill _ _ _) (fun _ => keeps_fillAll rules rest) store
      · exact .refl store
    · exact keeps_fillAll rules rest store

theorem keeps_link (rules : Rules) (pending : List ExprId) : (link rules pending).Keeps :=
  keeps_bind (keeps_checkTargets rules pending) fun _ => keeps_fillAll rules pending

/-! ## Steps that fail -/

theorem insert_closed {store : Store} {e : ExprId} {order : Order} {members : List ExprId}
    (h : store.formOf? e = some (.compound order members true)) (index : Int) (member : ExprId) :
    (insert e index member).runOn store = (.error .closedMembers, store) := by
  obtain ⟨⟨name, form⟩, hcell, rfl⟩ := Option.map_eq_some_iff.1 h
  rw [insert, runOn_bind_ok (runOn_get store), hcell]
  rfl

/-- An insertion that fails changes nothing. -/
theorem insert_error {store store' : Store} {e member : ExprId} {index : Int} {err : Error}
    (h : (insert e index member).runOn store = (.error err, store')) : store' = store := by
  rw [insert, runOn_bind_ok (runOn_get store)] at h
  split at h
  · cases h
  · exact (Prod.mk.inj h).2.symm

/-- An attachment that fails changes nothing. -/
theorem attach_error {store store' : Store} {e : ExprId} {place : Place} {err : Error}
    (h : (attach e place).runOn store = (.error err, store')) : store' = store := by
  rw [attach, runOn_bind_ok (runOn_get store)] at h
  split at h
  · cases h
  · exact (Prod.mk.inj h).2.symm
  · cases h

/-- A numbered slot of a closed member list is not written. -/
theorem fill_closed {store : Store} {p : ExprId} {order : Order} {members : List ExprId}
    (h : store.formOf? p = some (.compound order members true)) (target : Text) (slot : Int)
    (rule : ExprId) :
    (fill target (some ⟨p, some slot⟩) rule).runOn store = (.error .frozenSlot, store) := by
  obtain ⟨⟨name, form⟩, hcell, rfl⟩ := Option.map_eq_some_iff.1 h
  rw [fill, runOn_bind_ok (runOn_get store)]
  dsimp only
  rw [hcell]
  rfl

/-- Slots are filled one after the other, up to the first one that fails. -/
theorem fillAll_append (rules : Rules) : ∀ (ps qs : List ExprId) (store mid : Store),
    (fillAll rules ps).runOn store = (.ok ⟨⟩, mid) →
    (fillAll rules (ps ++ qs)).runOn store = (fillAll rules qs).runOn mid
  | [], qs, store, mid, h => by
    cases h
    rfl
  | e :: rest, qs, store, mid, h => by
    rw [fillAll, runOn_bind_ok (runOn_get store)] at h
    rw [List.cons_append, fillAll, runOn_bind_ok (runOn_get store)]
    split at h
    · next target place _ =>
      split at h
      · next rule _ =>
        rcases hfill : (fill target place rule).runOn store with ⟨err | _, store'⟩
        · rw [runOn_bind_error hfill] at h
          cases h
        · rw [runOn_bind_ok hfill] at h ⊢
          exact fillAll_append rules rest qs store' mid h
      · cases h
    · exact fillAll_append rules rest qs store mid h

/-- Linking fails when it comes to a reference in a numbered slot of a closed member list. -/
theorem link_closed {store mid : Store} {rules : Rules} {before after : List ExprId} {e p : ExprId}
    {target : Text} {slot : Int} {order : Order} {members : List ExprId}
    (hclosed : store.formOf? p = some (.compound order members true))
    (hplace : store.formOf? e = some (.reference target (some ⟨p, some slot⟩)))
    (hknown : ∀ x ∈ before ++ e :: after, ∃ target rule, store.targetOf? x = some target ∧
      rules.lookup target = some rule)
    (hbefore : (fillAll rules before).runOn store = (.ok ⟨⟩, mid)) :
    (link rules (before ++ e :: after)).runOn store = (.error .frozenSlot, mid) := by
  have hkeeps := keeps_fillAll rules before store
  rw [hbefore] at hkeeps
  have hclosed' := hkeeps p _ hclosed rfl
  have hplace' := hkeeps e _ hplace rfl
  obtain ⟨⟨name, form⟩, hcell, rfl⟩ := Option.map_eq_some_iff.1 hplace'
  obtain ⟨target', rule, htarget, hrule⟩ := hknown e (List.mem_append_right _ List.mem_cons_self)
  obtain rfl : target = target' := by
    obtain ⟨⟨name', form'⟩, hcell', rfl⟩ := Option.map_eq_some_iff.1 hplace
    rw [Store.targetOf?, hcell'] at htarget
    exact Option.some.inj htarget
  rw [link, runOn_bind_ok (checkTargets_runOn hknown), fillAll_append rules before _ store mid hbefore,
    fillAll, runOn_bind_ok (runOn_get mid), pending?, hcell]
  dsimp only
  rw [hrule]
  exact runOn_bind_error (fill_closed hclosed' target slot rule)

end Build

/-! ## Edits -/

namespace Edit

open Build

section

variable [Platform]

/-- Every edit keeps settled forms. -/
theorem perform_keeps (edit : Edit) : edit.perform.Keeps := by
  cases edit with
  | literal name text => exact keeps_map (keeps_add _) _
  | regex name source flags =>
    rw [perform]
    split
    · exact keeps_map (keeps_add _) _
    · exact keeps_throw _
  | compound name order members => exact keeps_map (keeps_compound name order members) _
  | unary name wrap member => exact keeps_map (keeps_unary name wrap member) _
  | reference name target => exact keeps_map (keeps_add _) _
  | unknown name => exact keeps_map (keeps_add _) _
  | insert e index member => exact keeps_map (keeps_insert e index member) _
  | rename e name => exact keeps_map (keeps_rename e name) _
  | attach e place => exact keeps_map (keeps_attach e place) _
  | freeze roots => exact keeps_map (keeps_freeze roots) _
  | link rules pending => exact keeps_map (keeps_link rules pending) _

/-- Edits one after the other keep settled forms. -/
theorem keeps_afterAll : ∀ (edits : List Edit) (store : Store), store.Keeps (afterAll edits store)
  | [], store => .refl store
  | edit :: rest, store => (edit.perform_keeps store).trans (keeps_afterAll rest (edit.after store))

theorem afterAll_append (edits more : List Edit) (store : Store) :
    afterAll (edits ++ more) store = afterAll more (afterAll edits store) := List.foldl_append

/-- What comes of edits, each of which may have failed.  Whatever edits follow, a closed member
list stays closed and as it is, and a reference that is attached keeps its target and its slot.
An insertion into a closed member list fails, and so does linking when it comes to a numbered
slot of one.  An insertion or attachment that fails leaves the store as it was. -/
theorem settled_after_edits (edits : List Edit) :
    (∀ more, (afterAll edits #[]).Keeps (afterAll (edits ++ more) #[])) ∧
    (∀ p order members, (afterAll edits #[]).formOf? p = some (.compound order members true) →
      (∀ index member, (insert p index member).perform.runOn (afterAll edits #[]) =
        (.error .closedMembers, afterAll edits #[])) ∧
      ∀ rules before e after target slot mid,
        (afterAll edits #[]).formOf? e = some (.reference target (some ⟨p, some slot⟩)) →
        (∀ x ∈ before ++ e :: after, ∃ target rule, (afterAll edits #[]).targetOf? x = some target ∧
          List.lookup target rules = some rule) →
        (fillAll rules before).runOn (afterAll edits #[]) = (.ok ⟨⟩, mid) →
        (link rules (before ++ e :: after)).perform.runOn (afterAll edits #[]) =
          (.error .frozenSlot, mid)) ∧
    ∀ edit err store', (∃ e index member, edit = insert e index member) ∨
        (∃ e place, edit = attach e place) →
      edit.perform.runOn (afterAll edits #[]) = (.error err, store') → store' = afterAll edits #[] := by
  generalize hstore : afterAll edits #[] = store
  refine ⟨fun more => ?_, fun p order members hclosed => ⟨fun index member => ?_, ?_⟩, ?_⟩
  · rw [afterAll_append, hstore]
    exact keeps_afterAll more store
  · exact runOn_map _ (insert_closed hclosed index member)
  · intro rules before e after target slot mid hplace hknown hbefore
    exact runOn_map _ (link_closed hclosed hplace hknown hbefore)
  · rintro edit err store' (⟨e, index, member, rfl⟩ | ⟨e, place, rfl⟩) h
    · exact insert_error (runOn_map_error h)
    · exact attach_error (runOn_map_error h)

end

attribute [local instance] Platform.builtIn

-- Freezing stops at the reference, but by then it has closed the list that holds it.
example : ((Edit.link [(['a'], 1)] [0]).perform.runOn (afterAll
    [.reference [] ['a'], .compound ['a'] .sequence [0], .freeze [1]] #[])).1 = .error .frozenSlot := by
  decide

end Edit

end Pegboard
