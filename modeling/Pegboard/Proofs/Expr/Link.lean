import Pegboard.Expr.Link
import Pegboard.Proofs.Expr.Freeze

/-!
# What linking does

A pending reference records a slot, which is its seat (`Store.seat?`).  Linking puts the
rule that the reference names into its seat.  It does so exactly when every reference is
seated, that is, when it sits where it says that it sits: then the seats of the pending
references are written and nothing else changes (`link_runOn`).

If a target is missing, linking stops at the first reference without one, before anything
is written (`link_runOn_missing`).
-/

namespace Pegboard

/-! ## Slots -/

/-- The form with every slot replaced, given its number and what it holds. -/
def Form.mapSlots (f : Nat → ExprId → ExprId) : Form → Form
  | .compound order members frozen => .compound order (members.mapIdx f) frozen
  | .unary wrap member => .unary wrap (f 0 member)
  | form => form

/-- The expression with every slot replaced. -/
def Cell.mapSlots (f : Nat → ExprId → ExprId) (cell : Cell) : Cell :=
  { cell with form := cell.form.mapSlots f }

namespace Cell

variable {f g : Nat → ExprId → ExprId} {cell : Cell}

theorem mapSlots_target? : (cell.mapSlots f).target? = cell.target? := by
  obtain ⟨name, form⟩ := cell
  cases form <;> rfl

theorem mapSlots_members : (cell.mapSlots f).members = cell.members.mapIdx f := by
  obtain ⟨name, form⟩ := cell
  cases form <;> simp [mapSlots, Form.mapSlots, members, Form.members]

theorem mapSlots_mapSlots :
    (cell.mapSlots f).mapSlots g = cell.mapSlots fun i m => g i (f i m) := by
  obtain ⟨name, form⟩ := cell
  cases form <;> simp [mapSlots, Form.mapSlots, Function.comp_def]

theorem mapSlots_congr (h : ∀ i m, cell.members[i]? = some m → f i m = g i m) :
    cell.mapSlots f = cell.mapSlots g := by
  obtain ⟨name, form⟩ := cell
  cases form with
  | compound order slots frozen =>
    have : slots.mapIdx f = slots.mapIdx g := by
      refine List.ext_getElem? fun i => ?_
      rw [List.getElem?_mapIdx, List.getElem?_mapIdx]
      cases hi : slots[i]? with
      | none => rfl
      | some m => simp only [Option.map_some, h i m hi]
    simp only [mapSlots, Form.mapSlots, this]
  | unary wrap member => simp only [mapSlots, Form.mapSlots, h 0 member rfl]
  | _ => rfl

end Cell

namespace Store

/-- The slot that a pending reference records, if its parent has it open: the parent and
the number of the slot. -/
def seat? (store : Store) (e : ExprId) : Option (ExprId × Nat) :=
  match store[e]? with
  | some ⟨_, .reference _ (some place)⟩ =>
    match store[place.parent]?, place.slot with
    | some ⟨_, .compound _ members false⟩, some slot =>
      (Build.slotIndex? members.length slot).map (place.parent, ·)
    | some ⟨_, .unary _ _⟩, _ => some (place.parent, 0)
    | _, _ => none
  | _ => none

/-- The reference sits where it says that it sits. -/
def Seated (store : Store) (e : ExprId) : Prop :=
  ∃ p i, store.seat? e = some (p, i) ∧ (store.membersOf p)[i]? = some e

/-- The rule that a reference names, or the reference itself if there is none. -/
def ruleFor (store : Store) (rules : Rules) (e : ExprId) : ExprId :=
  ((store.targetOf? e).bind (rules.lookup ·)).getD e

/-- What a slot holds after linking: the rule that the reference in it names, if that
reference is pending and seated there, and else what it held. -/
def linkedSlot (store : Store) (rules : Rules) (pending : List ExprId) (p : ExprId) (i : Nat)
    (m : ExprId) : ExprId :=
  if m ∈ pending ∧ store.seat? m = some (p, i) then store.ruleFor rules m else m

/-! ## Writing one slot -/

/-- The store with one slot of an expression overwritten. -/
def setSlot (store : Store) (p : ExprId) (i : Nat) (m : ExprId) : Store :=
  store.change p (Cell.mapSlots fun j old => if j = i then m else old)

theorem targetOf?_setSlot (store : Store) (p : ExprId) (i : Nat) (m e : ExprId) :
    (store.setSlot p i m).targetOf? e = store.targetOf? e := by
  simp only [setSlot, targetOf?, getElem?_change]
  split
  · cases store[e]? with
    | none => rfl
    | some cell => exact Cell.mapSlots_target?
  · rfl

theorem getElem?_setSlot_reference {store : Store} {e : ExprId} {name target : Text}
    {place : Option Place} (h : store[e]? = some ⟨name, .reference target place⟩) (p : ExprId)
    (i : Nat) (m : ExprId) : (store.setSlot p i m)[e]? = some ⟨name, .reference target place⟩ := by
  rw [setSlot, getElem?_change, h]
  split <;> rfl

/-- Writing a slot moves no seat. -/
theorem seat?_setSlot (store : Store) (p : ExprId) (i : Nat) (m e : ExprId) :
    (store.setSlot p i m).seat? e = store.seat? e := by
  have hparent : ∀ q, (store.setSlot p i m)[q]? =
      if q = p then store[q]?.map (Cell.mapSlots fun j old => if j = i then m else old)
      else store[q]? := fun q => getElem?_change store p _ q
  rcases he : store[e]? with _ | ⟨name, form⟩
  · have he' : (store.setSlot p i m)[e]? = none := by
      rw [hparent, he]
      split <;> rfl
    simp only [seat?, he, he']
  · cases form with
    | reference target place =>
      have he' := getElem?_setSlot_reference he p i m
      cases place with
      | none => simp only [seat?, he, he']
      | some place =>
        simp only [seat?, he, he', hparent]
        by_cases hq : place.parent = p
        · rw [if_pos hq]
          rcases store[place.parent]? with _ | ⟨name', form'⟩
          · rfl
          · cases form' with
            | compound order members frozen =>
              cases frozen <;> cases place.slot <;>
                simp [Cell.mapSlots, Form.mapSlots]
            | _ => rfl
        · rw [if_neg hq]
    | _ =>
      have he' : ∃ cell, (store.setSlot p i m)[e]? = some cell ∧
          ∀ name target place, cell ≠ ⟨name, .reference target place⟩ := by
        rw [hparent, he]
        split
        · exact ⟨_, rfl, by simp [Cell.mapSlots, Form.mapSlots]⟩
        · exact ⟨_, rfl, by simp⟩
      obtain ⟨⟨name', form'⟩, he', hne⟩ := he'
      simp only [seat?, he, he']
      cases form' with
      | reference target place => exact absurd rfl (hne name' target place)
      | _ => rfl

theorem membersOf_setSlot (store : Store) (p : ExprId) (i : Nat) (m q : ExprId) (j : Nat) :
    ((store.setSlot p i m).membersOf q)[j]? =
      if q = p ∧ j = i then (store.membersOf q)[j]?.map fun _ => m else (store.membersOf q)[j]? := by
  simp only [setSlot, membersOf, getElem?_change]
  by_cases hq : q = p
  · subst hq
    rcases store[q]? with _ | cell
    · simp
    · simp only [if_true, Option.map_some, Option.getD_some, Cell.mapSlots_members,
        List.getElem?_mapIdx, true_and]
      by_cases hj : j = i
      · rw [if_pos hj, hj]
        simp
      · simp [hj]
  · simp [hq]

end Store

namespace Build

/-- Filling the slot of a reference overwrites its seat. -/
theorem fill_runOn {store : Store} {e : ExprId} {target : Text} {place : Option Place}
    {p : ExprId} {i : Nat} (hpending : pending? store e = some (target, place))
    (hseat : store.seat? e = some (p, i)) (rule : ExprId) :
    (fill target place rule).runOn store = (.ok ⟨⟩, store.setSlot p i rule) := by
  unfold pending? at hpending
  split at hpending
  · next name target' place' he =>
    cases hpending
    cases place with
    | none => simp [Store.seat?, he] at hseat
    | some place =>
      simp only [Store.seat?, he] at hseat
      rw [fill, runOn_bind_ok (runOn_get store)]
      dsimp only
      split at hseat
      · next name' order members slot hcell hslot =>
        obtain ⟨j, hj, hpair⟩ := Option.map_eq_some_iff.1 hseat
        cases hpair
        simp only [hcell, hslot, hj, runOn_set, Store.setSlot, Store.change]
        congr 3
        simp only [Form.mapSlots]
        congr 2
        refine List.ext_getElem? fun k => ?_
        rw [List.getElem?_mapIdx, List.getElem?_set]
        by_cases hk : k = i
        · subst hk
          by_cases hlt : k < members.length
          · simp [hlt]
          · simp [hlt]
        · simp [hk, Ne.symm hk]
      · next name' wrap member hcell =>
        cases hseat
        simp only [hcell, runOn_set, Store.setSlot, Store.change]
        rfl
      · cases hseat
  · cases hpending

/-! ## Writing all slots -/

theorem pending?_of_seated {store : Store} {e : ExprId} (h : store.Seated e) :
    ∃ target place, pending? store e = some (target, place) ∧ store.targetOf? e = some target := by
  obtain ⟨p, i, hseat, -⟩ := h
  unfold Store.seat? at hseat
  split at hseat
  · next name target place he =>
    exact ⟨target, some place, by simp [pending?, he], by simp [Store.targetOf?, he, Cell.target?]⟩
  · cases hseat

theorem pending?_eq_some {store : Store} {e : ExprId} {target : Text} {place : Option Place}
    (h : pending? store e = some (target, place)) : store.targetOf? e = some target := by
  unfold pending? at h
  split at h
  · next name target' place' he =>
    cases h
    simp [Store.targetOf?, he, Cell.target?]
  · cases h

theorem pending?_of_targetOf? {store : Store} {e : ExprId} {target : Text}
    (h : store.targetOf? e = some target) : ∃ place, pending? store e = some (target, place) := by
  obtain ⟨⟨name, form⟩, hcell, htarget⟩ := Option.bind_eq_some_iff.1 h
  cases form with
  | reference target' place =>
    cases htarget
    exact ⟨place, by simp [pending?, hcell]⟩
  | _ => cases htarget

/-- Every pending reference is seated and names a rule, and none is pending twice. -/
structure Linkable (store : Store) (rules : Rules) (pending : List ExprId) : Prop where
  nodup : pending.Nodup
  seated : ∀ e ∈ pending, store.Seated e
  named : ∀ e ∈ pending, ∃ target rule, store.targetOf? e = some target ∧
    rules.lookup target = some rule

/-- Once the seat of the first reference is written, the others can still be linked. -/
theorem Linkable.tail {store : Store} {rules : Rules} {e : ExprId} {rest : List ExprId}
    (h : Linkable store rules (e :: rest)) {p : ExprId} {i : Nat}
    (hseat : store.seat? e = some (p, i)) (hslot : (store.membersOf p)[i]? = some e)
    (rule : ExprId) : Linkable (store.setSlot p i rule) rules rest where
  nodup := (List.nodup_cons.1 h.nodup).2
  seated x hx := by
    obtain ⟨q, j, hq, hj⟩ := h.seated x (List.mem_cons_of_mem e hx)
    refine ⟨q, j, by rw [Store.seat?_setSlot]; exact hq, ?_⟩
    rw [Store.membersOf_setSlot, if_neg]
    · exact hj
    · -- The written slot held the first reference, and `x` is another one.
      rintro ⟨rfl, rfl⟩
      rw [hslot] at hj
      cases hj
      exact (List.nodup_cons.1 h.nodup).1 hx
  named x hx := by
    rw [Store.targetOf?_setSlot]
    exact h.named x (List.mem_cons_of_mem e hx)

theorem ruleFor_setSlot (store : Store) (rules : Rules) (p : ExprId) (i : Nat) (m e : ExprId) :
    (store.setSlot p i m).ruleFor rules e = store.ruleFor rules e := by
  unfold Store.ruleFor
  rw [Store.targetOf?_setSlot]

/-- A slot that is not the seat of the first reference is linked as by the others. -/
theorem linkedSlot_setSlot_of_ne {store : Store} {rules : Rules} {e : ExprId} {rest : List ExprId}
    {p q : ExprId} {i j : Nat} (hseat : store.seat? e = some (p, i)) (hne : ¬ (q = p ∧ j = i))
    (rule m : ExprId) : (store.setSlot p i rule).linkedSlot rules rest q j m =
      store.linkedSlot rules (e :: rest) q j m := by
  unfold Store.linkedSlot
  rw [Store.seat?_setSlot, ruleFor_setSlot]
  refine if_congr ⟨fun hm => ⟨List.mem_cons_of_mem e hm.1, hm.2⟩, fun hm => ⟨?_, hm.2⟩⟩ rfl rfl
  rcases List.mem_cons.1 hm.1 with rfl | hrest
  · have hpair := hm.2
    rw [hseat] at hpair
    cases hpair
    exact absurd ⟨rfl, rfl⟩ hne
  · exact hrest

/-- The seat of the first reference keeps the rule that is written there. -/
theorem linkedSlot_setSlot_self {store : Store} {rules : Rules} {e : ExprId} {rest : List ExprId}
    (h : Linkable store rules (e :: rest)) {p : ExprId} {i : Nat}
    (hslot : (store.membersOf p)[i]? = some e) (rule : ExprId) :
    (store.setSlot p i rule).linkedSlot rules rest p i rule = rule := by
  refine if_neg fun ⟨hmem, hseat⟩ => ?_
  -- Were the rule a pending reference with the same seat, it would be the first one.
  obtain ⟨q, j, hq, hj⟩ := h.seated rule (List.mem_cons_of_mem e hmem)
  rw [Store.seat?_setSlot, hq] at hseat
  cases hseat
  rw [hslot] at hj
  cases hj
  exact (List.nodup_cons.1 h.nodup).1 hmem

/-- Filling the seats of linkable references writes these slots and nothing else. -/
theorem fillAll_runOn {rules : Rules} : ∀ {pending : List ExprId} {store : Store},
    Linkable store rules pending →
    ∃ store', (fillAll rules pending).runOn store = (.ok ⟨⟩, store') ∧
      ∀ q, store'[q]? = store[q]?.map (Cell.mapSlots (store.linkedSlot rules pending q))
  | [], store, _ => by
    refine ⟨store, rfl, fun q => ?_⟩
    rcases store[q]? with _ | cell
    · rfl
    · refine congrArg some ?_
      obtain ⟨name, form⟩ := cell
      cases form <;> simp [Cell.mapSlots, Form.mapSlots, Store.linkedSlot, List.mapIdx_eq_zipIdx_map]
  | e :: rest, store, h => by
    obtain ⟨target, place, hpending, htarget⟩ := pending?_of_seated (h.seated e List.mem_cons_self)
    obtain ⟨p, i, hseat, hslot⟩ := h.seated e List.mem_cons_self
    obtain ⟨target', rule, htarget', hrule⟩ := h.named e List.mem_cons_self
    rw [htarget] at htarget'
    cases htarget'
    have hlinkable := h.tail hseat hslot rule
    obtain ⟨store', hrun, hcells⟩ := fillAll_runOn hlinkable
    refine ⟨store', ?_, fun q => ?_⟩
    · rw [fillAll, runOn_bind_ok (runOn_get store)]
      simp only [hpending, hrule]
      rw [runOn_bind_ok (fill_runOn hpending hseat rule), hrun]
    · rw [hcells q, Store.setSlot, Store.getElem?_change]
      rcases hc : store[q]? with _ | cell
      · split <;> rfl
      · have hmembers := Store.membersOf_eq hc
        by_cases hq : q = p
        · subst hq
          rw [if_pos rfl]
          refine congrArg some ?_
          rw [Cell.mapSlots_mapSlots]
          refine Cell.mapSlots_congr fun j m hm => ?_
          by_cases hj : j = i
          · subst hj
            rw [← hmembers, hslot] at hm
            cases hm
            rw [if_pos rfl]
            refine (linkedSlot_setSlot_self h hslot rule).trans ?_
            simp [Store.linkedSlot, hseat, Store.ruleFor, htarget, hrule]
          · rw [if_neg hj]
            exact linkedSlot_setSlot_of_ne hseat (fun hboth => hj hboth.2) rule m
        · rw [if_neg hq]
          refine congrArg some (Cell.mapSlots_congr fun j m _ => ?_)
          exact linkedSlot_setSlot_of_ne hseat (fun hboth => hq hboth.1) rule m

/-! ## Checking the targets -/

theorem checkTargets_runOn {rules : Rules} {store : Store} : ∀ {pending : List ExprId},
    (∀ e ∈ pending, ∃ target rule, store.targetOf? e = some target ∧
      rules.lookup target = some rule) →
    (checkTargets rules pending).runOn store = (.ok ⟨⟩, store)
  | [], _ => rfl
  | e :: rest, h => by
    have hrest := checkTargets_runOn fun x hx => h x (List.mem_cons_of_mem e hx)
    obtain ⟨target, rule, htarget, hrule⟩ := h e List.mem_cons_self
    rw [checkTargets, runOn_bind_ok (runOn_get store)]
    rcases hp : pending? store e with _ | ⟨target', place⟩
    · exact hrest
    · have := pending?_eq_some hp
      rw [htarget] at this
      cases this
      simp only [hrule, Option.isNone_some, Bool.false_eq_true, if_false]
      exact hrest

/-- Linkable references are linked: their seats are written and nothing else. -/
theorem link_runOn {store : Store} {rules : Rules} {pending : List ExprId}
    (h : Linkable store rules pending) :
    ∃ store', (link rules pending).runOn store = (.ok ⟨⟩, store') ∧
      ∀ q, store'[q]? = store[q]?.map (Cell.mapSlots (store.linkedSlot rules pending q)) := by
  obtain ⟨store', hrun, hcells⟩ := fillAll_runOn h
  refine ⟨store', ?_, hcells⟩
  rw [link, runOn_bind_ok (checkTargets_runOn h.named), hrun]

/-- Linkable references have a slot each, no two the same one, and linking puts the rule
there. -/
theorem Linkable.slots {store store' : Store} {rules : Rules} : ∀ {pending : List ExprId},
    Linkable store rules pending → (∀ e ∈ pending, ∀ q i, store.seat? e = some (q, i) →
      (store'.membersOf q)[i]? = some (store.ruleFor rules e)) →
    ∃ slots : List (ExprId × Nat), slots.Nodup ∧ List.Forall₂ (fun e slot =>
      store.seat? e = some slot ∧ (store.membersOf slot.1)[slot.2]? = some e ∧
        (store'.membersOf slot.1)[slot.2]? = some (store.ruleFor rules e)) pending slots
  | [], _, _ => ⟨[], .nil, .nil⟩
  | e :: rest, h, hwritten => by
    obtain ⟨slots, hnodup, hslots⟩ := Linkable.slots
      ⟨(List.nodup_cons.1 h.nodup).2, fun x hx => h.seated x (List.mem_cons_of_mem e hx),
        fun x hx => h.named x (List.mem_cons_of_mem e hx)⟩
      fun x hx => hwritten x (List.mem_cons_of_mem e hx)
    obtain ⟨q, i, hseat, hslot⟩ := h.seated e List.mem_cons_self
    refine ⟨(q, i) :: slots, List.nodup_cons.2 ⟨fun hmem => ?_, hnodup⟩,
      .cons ⟨hseat, hslot, hwritten e List.mem_cons_self q i hseat⟩ hslots⟩
    -- A later reference with the same slot would be held there too.
    obtain ⟨k, hk, hget⟩ := List.getElem_of_mem hmem
    have hlen := hslots.length_eq
    have hboth := hslots.get (by rw [hlen]; exact hk) hk
    simp only [List.get_eq_getElem, hget] at hboth
    rw [hslot] at hboth
    exact (List.nodup_cons.1 h.nodup).1 (Option.some.inj hboth.2.1 ▸ List.getElem_mem _)

/-- Linking stops at the first reference whose target is missing, and writes nothing. -/
theorem link_runOn_missing {store : Store} {rules : Rules} {pending : List ExprId} {targets : List Text}
    (h : pending.map store.targetOf? = targets.map some) {target : Text}
    (hmissing : targets.find? (fun t => (rules.lookup t).isNone) = some target) :
    (link rules pending).runOn store = (.error (.undefinedRule target), store) := by
  suffices hcheck : (checkTargets rules pending).runOn store =
      (.error (.undefinedRule target), store) by
    rw [link, runOn_bind_error hcheck]
  induction pending generalizing targets with
  | nil =>
    cases targets with
    | nil => cases hmissing
    | cons t ts => cases h
  | cons e rest ih =>
    cases targets with
    | nil => cases h
    | cons t ts =>
      simp only [List.map_cons, List.cons.injEq] at h
      obtain ⟨he, hrest⟩ := h
      obtain ⟨place, hp⟩ := pending?_of_targetOf? he
      rw [checkTargets, runOn_bind_ok (runOn_get store)]
      simp only [hp]
      simp only [List.find?_cons] at hmissing
      cases hnone : (rules.lookup t).isNone with
      | true =>
        rw [hnone] at hmissing
        cases hmissing
        simp only [if_true]
        rfl
      | false =>
        rw [hnone] at hmissing
        simp only [Bool.false_eq_true, if_false]
        exact ih hrest hmissing

end Build

end Pegboard
