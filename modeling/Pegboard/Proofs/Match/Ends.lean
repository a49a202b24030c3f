import Mathlib.Logic.Relation
import Pegboard.Proofs.Match.Bisimulation

/-!
# Where matches end

`Ends` says where the match of an expression ends, or that there is none, and nothing about
its node.  Where a form ends depends only on where its members do, and `EndsForm` says how.  One
level of a match ends as it says (`endsForm_of_matchForm`), and what it says of the ends of
members is the end of the expression (`EndsForm.ends`).  Alike forms end alike
(`EndsForm.mono`).

A sequence or a choice of one member ends where its member does (`Single.ends`).  So two graphs
can match to the same ends although one of them has such expressions where the other one has
none.  `EndSimulation` is what one graph needs to follow the ends of another one.  Related
expressions have alike forms, after finitely many expressions of one member on the side that
follows, or the side that leads has one member only and goes on with it.  The leading side may
go on like this forever, but then it does not come to an end.  `EndSimulation.ends` carries
ends over.
-/

namespace Pegboard.Store

/-- Where the match of an expression at an offset ends, or nothing if it does not match. -/
def Ends [Platform] (store : Store) (text : Text) (e : ExprId) (pos : Int) (stop : Option Int) :
    Prop :=
  ∃ o, Derives store text e pos o ∧ o.map Node.stop = stop

/-- Where a way to match members makes the match of one end. -/
def StepEnds (step : ExprId → Int → Outcome) (e : ExprId) (pos : Int) (stop : Option Int) : Prop :=
  ∃ o, step e pos = .ok o ∧ o.map Node.stop = stop

variable {store store' : Store} {text : Text} {pos : Int} {stop : Option Int} {e e' : ExprId}

theorem ends_iff_matchAt [Platform] [Platform.Bounded] : Ends store text e pos stop ↔
    ∃ depth o, store.matchAt text depth e pos = .ok o ∧ o.map Node.stop = stop := by
  constructor
  · rintro ⟨o, ho, hstop⟩
    obtain ⟨depth, hmatch⟩ := ho.matchAt
    exact ⟨depth, o, hmatch, hstop⟩
  · rintro ⟨depth, o, hmatch, hstop⟩
    exact ⟨o, derives_of_matchAt hmatch, hstop⟩

theorem StepEnds.ends [Platform] [Platform.Bounded] {depth : Nat}
    (h : StepEnds (store.matchAt text depth) e pos stop) :
    Ends store text e pos stop := ends_iff_matchAt.2 ⟨depth, h⟩

theorem not_stepEnds_zero [Platform] : ¬ StepEnds (store.matchAt text 0) e pos stop := by
  rintro ⟨o, ho, -⟩
  cases ho

/-- A match does not end before it begins. -/
theorem Ends.le [Platform] [Platform.Bounded] {end_ : Int} (h : Ends store text e pos (some end_)) :
    pos ≤ end_ := by
  obtain ⟨o, ho, hstop⟩ := h
  obtain ⟨node, rfl, rfl⟩ := Option.map_eq_some_iff.1 hstop
  exact ho.spans.2.1

/-! ## Ends of forms -/

/-- Members end one after the other. -/
inductive EndsAll (T : ExprId → Int → Option Int → Prop) : List ExprId → Int → Option Int → Prop where
  | nil {pos : Int} : EndsAll T [] pos (some pos)
  | fail {e : ExprId} {rest : List ExprId} {pos : Int} : T e pos none → EndsAll T (e :: rest) pos none
  | cons {e : ExprId} {rest : List ExprId} {pos mid : Int} {stop : Option Int} :
    T e pos (some mid) → EndsAll T rest mid stop → EndsAll T (e :: rest) pos stop

/-- The first member that matches ends. -/
inductive EndsFirst (T : ExprId → Int → Option Int → Prop) : List ExprId → Int → Option Int → Prop where
  | nil {pos : Int} : EndsFirst T [] pos none
  | first {e : ExprId} {rest : List ExprId} {pos end_ : Int} :
    T e pos (some end_) → EndsFirst T (e :: rest) pos (some end_)
  | later {e : ExprId} {rest : List ExprId} {pos : Int} {stop : Option Int} :
    T e pos none → EndsFirst T rest pos stop → EndsFirst T (e :: rest) pos stop

/-- A repetition ends after so many rounds. -/
inductive EndsChain (T : ExprId → Int → Option Int → Prop) (e : ExprId) : Int → Nat → Int → Prop where
  | fail {pos : Int} : T e pos none → EndsChain T e pos 0 pos
  | still {pos : Int} : T e pos (some pos) → EndsChain T e pos 0 pos
  | more {pos mid end_ : Int} {rounds : Nat} :
    T e pos (some mid) → mid ≠ pos → EndsChain T e mid rounds end_ → EndsChain T e pos (rounds + 1) end_

/-- Where a form at an offset ends, by where its members end. -/
inductive EndsForm [Platform] (text : Text) (T : ExprId → Int → Option Int → Prop) (pos : Int) :
    Form → Option Int → Prop where
  | literal (piece : Text) : EndsForm text T pos (.literal piece)
      (if text.startsAt piece pos then some (pos + piece.length) else none)
  | regex (pattern : Regex.Pattern) : EndsForm text T pos (.regex pattern)
      ((pattern.matchLength? (text.rest pos)).map fun length : Nat => pos + length)
  | sequence {members : List ExprId} {stop : Option Int} (frozen : Bool) :
    EndsAll T members pos stop → EndsForm text T pos (.compound .sequence members frozen) stop
  | choice {members : List ExprId} {stop : Option Int} (frozen : Bool) :
    EndsFirst T members pos stop → EndsForm text T pos (.compound .choice members frozen) stop
  | lookahead {member : ExprId} {stop : Option Int} :
    T member pos stop → EndsForm text T pos (.unary .lookahead member) (stop.map fun _ => pos)
  | negation {member : ExprId} {stop : Option Int} : T member pos stop →
    EndsForm text T pos (.unary .negation member) (if stop.isSome then none else some pos)
  | optional {member : ExprId} {stop : Option Int} :
    T member pos stop → EndsForm text T pos (.unary .optional member) (some (stop.getD pos))
  | star {member : ExprId} {rounds : Nat} {end_ : Int} : EndsChain T member pos rounds end_ →
    EndsForm text T pos (.unary .star member) (some end_)
  | plus {member : ExprId} {rounds : Nat} {end_ : Int} (least : Int) : EndsChain T member pos rounds end_ →
    EndsForm text T pos (.unary (.plus least) member) (if rounds < least then none else some end_)

/-! ## One level of a match -/

section Level

variable {step : ExprId → Int → Outcome}

theorem endsAll_of_matchAll : ∀ {members : List ExprId} {pos : Int} {r : Option (List Node × Int)},
    matchAll step members pos = .ok r → EndsAll (StepEnds step) members pos (r.map Prod.snd)
  | [], _, _, h => by
    cases h
    exact .nil
  | e :: rest, pos, r, h => by
    simp only [matchAll] at h
    rcases he : step e pos with err | _ | node <;> rw [he] at h
    · cases h
    · cases h
      exact .fail ⟨_, he, rfl⟩
    · refine .cons ⟨_, he, rfl⟩ ?_
      rcases hr : matchAll step rest node.stop with err | _ | ⟨nodes, last⟩ <;> simp only [hr] at h <;> cases h
      all_goals
        have hends := endsAll_of_matchAll hr
        exact hends

theorem endsFirst_of_matchFirst : ∀ {members : List ExprId} {pos : Int} {r : Option Node},
    matchFirst step members pos = .ok r → EndsFirst (StepEnds step) members pos (r.map Node.stop)
  | [], _, _, h => by
    cases h
    exact .nil
  | e :: rest, pos, r, h => by
    simp only [matchFirst] at h
    rcases he : step e pos with err | _ | node <;> rw [he] at h
    · cases h
    · exact .later ⟨_, he, rfl⟩ (endsFirst_of_matchFirst h)
    · cases h
      exact .first ⟨_, he, rfl⟩

theorem endsChain_of_matchRepeat (hspans : Spans text step) {e : ExprId} :
    ∀ {rounds : Nat} {pos : Int} {nodes : List Node}, (text.length - pos).toNat < rounds →
      matchRepeat (step e) rounds pos = .ok nodes →
      EndsChain (StepEnds step) e pos nodes.length (chainStop pos nodes)
  | 0, _, _, hlt, _ => absurd hlt (Nat.not_lt_zero _)
  | rounds + 1, pos, nodes, hlt, h => by
    simp only [matchRepeat] at h
    rcases he : step e pos with err | _ | node <;> rw [he] at h
    · cases h
    · cases h
      exact .fail ⟨_, he, rfl⟩
    · dsimp only at h
      split at h
      · next hstill =>
        cases h
        exact .still ⟨_, he, congrArg some hstill⟩
      · next hmoved =>
        rcases hr : matchRepeat (step e) rounds node.stop with err | more <;> simp only [hr] at h <;> cases h
        have hspan := (hspans e pos node he).2
        have hless : (text.length - node.stop).toNat < rounds := by
          unfold EndsFrom at hspan
          omega
        rw [chainStop_cons]
        exact .more ⟨_, he, rfl⟩ hmoved (endsChain_of_matchRepeat hspans hless hr)

/-- One level of a match ends where the ends of the members say. -/
theorem endsForm_of_matchForm [Platform] (hspans : Spans text step) {form : Form}
    {o : Option (Int × List Node)} (h : matchForm text step pos form = .ok o) :
    EndsForm text (StepEnds step) pos form (o.map Prod.fst) := by
  have hrounds := lt_roundsFrom text pos
  unfold matchForm at h
  split at h
  · next piece =>
    cases h
    rw [apply_ite (Option.map Prod.fst)]
    exact .literal piece
  · next pattern =>
    cases h
    rw [Option.map_map]
    exact .regex pattern
  · next frozen =>
    obtain ⟨r, hr, rfl⟩ := map_eq_ok h
    rw [Option.map_map]
    exact .sequence frozen (endsAll_of_matchAll hr)
  · next frozen =>
    obtain ⟨r, hr, rfl⟩ := map_eq_ok h
    rw [Option.map_map]
    exact .choice frozen (endsFirst_of_matchFirst hr)
  · obtain ⟨r, hr, rfl⟩ := map_eq_ok h
    have hends : EndsForm text (StepEnds step) pos _ _ := .lookahead ⟨_, hr, rfl⟩
    rw [Option.map_map] at hends ⊢
    exact hends
  · obtain ⟨r, hr, rfl⟩ := map_eq_ok h
    have hmember : StepEnds step _ pos (r.map Node.stop) := ⟨_, hr, rfl⟩
    cases r <;> exact .negation hmember
  · obtain ⟨r, hr, rfl⟩ := map_eq_ok h
    have hmember : StepEnds step _ pos (r.map Node.stop) := ⟨_, hr, rfl⟩
    cases r <;> exact .optional hmember
  · obtain ⟨nodes, hr, rfl⟩ := map_eq_ok h
    exact .star (endsChain_of_matchRepeat hspans hrounds hr)
  · next least _ =>
    obtain ⟨nodes, hr, rfl⟩ := map_eq_ok h
    rw [apply_ite (Option.map Prod.fst)]
    exact .plus least (endsChain_of_matchRepeat hspans hrounds hr)
  · cases h
  · cases h

end Level

/-! ## Ends of members make that of the expression -/

theorem Ends.none [Platform] (h : Ends store text e pos none) : Derives store text e pos none := by
  obtain ⟨o, ho, hstop⟩ := h
  rwa [Option.map_eq_none_iff.1 hstop] at ho

theorem Ends.some [Platform] {end_ : Int} (h : Ends store text e pos (some end_)) :
    ∃ node, Derives store text e pos (some node) ∧ node.stop = end_ := by
  obtain ⟨o, ho, hstop⟩ := h
  obtain ⟨node, rfl, hend⟩ := Option.map_eq_some_iff.1 hstop
  exact ⟨node, ho, hend⟩

theorem EndsAll.derives [Platform] {members : List ExprId}
    (h : EndsAll (Ends store text) members pos stop) :
    ∃ r, DerivesAll store text pos members r ∧ r.map Prod.snd = stop := by
  induction h with
  | nil => exact ⟨_, .nil, rfl⟩
  | fail he => exact ⟨_, .fail he.none, rfl⟩
  | cons he _ ih =>
    obtain ⟨node, hnode, rfl⟩ := he.some
    obtain ⟨r, hr, rfl⟩ := ih
    refine ⟨_, .cons hnode hr, ?_⟩
    rw [Option.map_map]
    rfl

theorem EndsFirst.derives [Platform] {members : List ExprId}
    (h : EndsFirst (Ends store text) members pos stop) :
    ∃ r, DerivesFirst store text pos members r ∧ r.map Node.stop = stop := by
  induction h with
  | nil => exact ⟨_, .nil, rfl⟩
  | first he =>
    obtain ⟨node, hnode, rfl⟩ := he.some
    exact ⟨_, .first hnode, rfl⟩
  | later he _ ih =>
    obtain ⟨r, hr, hstop⟩ := ih
    exact ⟨_, .later he.none hr, hstop⟩

theorem EndsChain.derives [Platform] {rounds : Nat} {end_ : Int}
    (h : EndsChain (Ends store text) e pos rounds end_) :
    ∃ nodes, DerivesChain store text pos e nodes ∧ nodes.length = rounds ∧ chainStop pos nodes = end_ := by
  induction h with
  | fail he => exact ⟨_, .fail he.none, rfl, rfl⟩
  | still he =>
    obtain ⟨node, hnode, hstop⟩ := he.some
    exact ⟨_, .still hnode hstop, rfl, rfl⟩
  | more he hmoved _ ih =>
    obtain ⟨node, hnode, rfl⟩ := he.some
    obtain ⟨nodes, hnodes, rfl, rfl⟩ := ih
    exact ⟨_, .more hnode hmoved hnodes, rfl, chainStop_cons _ _ _⟩

/-- An expression ends where the ends of its members say. -/
theorem EndsForm.ends [Platform] {cell : Cell} (hcell : store[e]? = some cell)
    (h : EndsForm text (Ends store text) pos cell.form stop) : Ends store text e pos stop := by
  obtain ⟨o, ho, rfl⟩ : ∃ o, DerivesForm store text pos cell.form o ∧ o.map Prod.fst = stop := by
    generalize cell.form = form at h
    cases h with
    | literal piece =>
      split
      · next hstarts => exact ⟨_, .literal hstarts, rfl⟩
      · next hstarts => exact ⟨_, .literalFail (Bool.not_eq_true _ ▸ hstarts), rfl⟩
    | regex pattern =>
      rcases hlength : pattern.matchLength? (text.rest pos) with _ | length
      · exact ⟨_, .regexFail hlength, rfl⟩
      · exact ⟨_, .regex hlength, rfl⟩
    | sequence frozen hall =>
      obtain ⟨r, hr, rfl⟩ := hall.derives
      exact ⟨_, .sequence hr, by rw [Option.map_map]; rfl⟩
    | choice frozen hfirst =>
      obtain ⟨r, hr, rfl⟩ := hfirst.derives
      exact ⟨_, .choice hr, by rw [Option.map_map]; rfl⟩
    | lookahead hmember =>
      obtain ⟨o, ho, rfl⟩ := hmember
      exact ⟨_, .lookahead ho, by rw [Option.map_map, Option.map_map]; rfl⟩
    | negation hmember =>
      obtain ⟨_ | node, ho, rfl⟩ := hmember
      · exact ⟨_, .negation ho, rfl⟩
      · exact ⟨_, .negationFail ho, rfl⟩
    | optional hmember =>
      obtain ⟨_ | node, ho, rfl⟩ := hmember
      · exact ⟨_, .optionalNone ho, rfl⟩
      · exact ⟨_, .optional ho, rfl⟩
    | star hchain =>
      obtain ⟨nodes, hnodes, -, rfl⟩ := hchain.derives
      exact ⟨_, .star hnodes, rfl⟩
    | plus least hchain =>
      obtain ⟨nodes, hnodes, rfl, rfl⟩ := hchain.derives
      split
      · next hfew => exact ⟨_, .plusFail hnodes hfew, rfl⟩
      · next henough => exact ⟨_, .plus hnodes henough, rfl⟩
  refine ⟨_, .expr hcell ho, ?_⟩
  rw [Option.map_map]
  rfl

/-- Where one level of a match ends follows from the ends one level below. -/
theorem StepEnds.form [Platform] [Platform.Bounded] {depth : Nat}
    (h : StepEnds (store.matchAt text (depth + 1)) e pos stop) :
    ∃ cell, store[e]? = some cell ∧ EndsForm text (StepEnds (store.matchAt text depth)) pos cell.form stop := by
  obtain ⟨o, ho, rfl⟩ := h
  rcases hcell : store[e]? with _ | cell
  · rw [matchAt_none hcell] at ho
    cases ho
  · rw [matchAt_succ hcell] at ho
    obtain ⟨r, hr, rfl⟩ := map_eq_ok ho
    have hform := endsForm_of_matchForm (matchAt_spans store text depth) hr
    rw [Option.map_map]
    exact ⟨cell, rfl, hform⟩

/-! ## Alike forms -/

section Mono

variable {R : ExprId → ExprId → Prop} {T T' : ExprId → Int → Option Int → Prop} {least : Int}
  (hT : ∀ e e', R e e' → ∀ pos, least ≤ pos → ∀ stop, T e pos stop → T' e' pos stop)
  (hforward : ∀ e pos end_, T e pos (some end_) → pos ≤ end_)
include hT hforward

theorem EndsAll.mono {members members' : List ExprId} (hmembers : List.Forall₂ R members members')
    (hpos : least ≤ pos) (h : EndsAll T members pos stop) : EndsAll T' members' pos stop := by
  induction hmembers generalizing pos with
  | nil =>
    cases h
    exact .nil
  | cons he _ ih =>
    cases h with
    | fail h => exact .fail (hT _ _ he pos hpos _ h)
    | cons h hrest =>
      exact .cons (hT _ _ he pos hpos _ h) (ih (Int.le_trans hpos (hforward _ _ _ h)) hrest)

omit hforward in
theorem EndsFirst.mono {members members' : List ExprId} (hmembers : List.Forall₂ R members members')
    (hpos : least ≤ pos) (h : EndsFirst T members pos stop) : EndsFirst T' members' pos stop := by
  induction hmembers with
  | nil =>
    cases h
    exact .nil
  | cons he _ ih =>
    cases h with
    | first h => exact .first (hT _ _ he pos hpos _ h)
    | later h hrest => exact .later (hT _ _ he pos hpos _ h) (ih hrest)

theorem EndsChain.mono (he : R e e') {rounds : Nat} {end_ : Int} (hpos : least ≤ pos)
    (h : EndsChain T e pos rounds end_) : EndsChain T' e' pos rounds end_ := by
  induction h with
  | fail h => exact .fail (hT _ _ he _ hpos _ h)
  | still h => exact .still (hT _ _ he _ hpos _ h)
  | more h hmoved _ ih =>
    exact .more (hT _ _ he _ hpos _ h) hmoved (ih (Int.le_trans hpos (hforward _ _ _ h)))

/-- Alike forms end alike, if members that are related do so from the offset on. -/
theorem EndsForm.mono [Platform] {form form' : Form} (halike : Form.Alike R form form')
    (hpos : least ≤ pos) (h : EndsForm text T pos form stop) : EndsForm text T' pos form' stop := by
  cases halike with
  | literal piece =>
    cases h
    exact .literal piece
  | regex pattern =>
    cases h
    exact .regex pattern
  | compound order frozen frozen' hmembers =>
    cases h with
    | sequence _ h => exact .sequence frozen' (h.mono hT hforward hmembers hpos)
    | choice _ h => exact .choice frozen' (h.mono hT hmembers hpos)
  | unary wrap hmember =>
    cases h with
    | lookahead h => exact .lookahead (hT _ _ hmember pos hpos _ h)
    | negation h => exact .negation (hT _ _ hmember pos hpos _ h)
    | optional h => exact .optional (hT _ _ hmember pos hpos _ h)
    | star h => exact .star (h.mono hT hforward hmember hpos)
    | plus least h => exact .plus least (h.mono hT hforward hmember hpos)

end Mono

/-! ## Expressions of one member -/

/-- An expression is a sequence or a choice of one member. -/
def Single (store : Store) (e m : ExprId) : Prop :=
  ∃ name order frozen, store[e]? = some ⟨name, .compound order [m] frozen⟩

theorem endsAll_singleton {T : ExprId → Int → Option Int → Prop} {m : ExprId} :
    EndsAll T [m] pos stop ↔ T m pos stop := by
  constructor
  · intro h
    cases h with
    | fail h => exact h
    | cons h hnil =>
      cases hnil
      exact h
  · intro h
    cases stop with
    | none => exact .fail h
    | some end_ => exact .cons h .nil

theorem endsFirst_singleton {T : ExprId → Int → Option Int → Prop} {m : ExprId} :
    EndsFirst T [m] pos stop ↔ T m pos stop := by
  constructor
  · intro h
    cases h with
    | first h => exact h
    | later h hnil =>
      cases hnil
      exact h
  · intro h
    cases stop with
    | none => exact .later h .nil
    | some end_ => exact .first h

/-- An expression of one member ends where its member does. -/
theorem Single.ends [Platform] {m : ExprId} (h : Single store e m)
    (hm : Ends store text m pos stop) :
    Ends store text e pos stop := by
  obtain ⟨name, order, frozen, hcell⟩ := h
  cases order with
  | sequence => exact EndsForm.ends hcell (.sequence frozen (endsAll_singleton.2 hm))
  | choice => exact EndsForm.ends hcell (.choice frozen (endsFirst_singleton.2 hm))

/-- If an expression of one member comes to an end, so does its member, one level below. -/
theorem Single.stepEnds [Platform] [Platform.Bounded] {m : ExprId} (h : Single store e m)
    {depth : Nat} (hends : StepEnds (store.matchAt text (depth + 1)) e pos stop) :
    StepEnds (store.matchAt text depth) m pos stop := by
  obtain ⟨name, order, frozen, hcell⟩ := h
  obtain ⟨cell, hcell', hform⟩ := hends.form
  obtain rfl := Option.some.inj (hcell.symm.trans hcell')
  cases hform with
  | sequence _ h => exact endsAll_singleton.1 h
  | choice _ h => exact endsFirst_singleton.1 h

/-- An expression ends where one does that it comes down to. -/
theorem ends_of_singles [Platform] {k : ExprId} (h : Relation.ReflTransGen (Single store) e k)
    (hk : Ends store text k pos stop) : Ends store text e pos stop := by
  induction h using Relation.ReflTransGen.head_induction_on with
  | refl => exact hk
  | head hfirst _ ih => exact hfirst.ends ih

/-! ## Simulation -/

/-- Related expressions of two stores end alike: the second one comes down to an expression
whose form is alike, or to one that is related to the only member of the first one. -/
def EndSimulation (store store' : Store) (R : ExprId → ExprId → Prop) : Prop :=
  ∀ e e', R e e' → ∃ k', Relation.ReflTransGen (Single store') e' k' ∧
    ((∃ m, Single store e m ∧ R m k') ∨
      ∃ cell cell', store[e]? = some cell ∧ store'[k']? = some cell' ∧
        Form.Alike R cell.form cell'.form)

/-- The second store follows the first one to its ends. -/
theorem EndSimulation.stepEnds [Platform] [Platform.Bounded] {R : ExprId → ExprId → Prop}
    (hR : EndSimulation store store' R) :
    ∀ (depth : Nat) (e e' : ExprId), R e e' → ∀ pos stop,
      StepEnds (store.matchAt text depth) e pos stop → Ends store' text e' pos stop := by
  intro depth
  induction depth with
  | zero => exact fun e e' _ pos stop h => absurd h not_stepEnds_zero
  | succ depth ih =>
    intro e e' he pos stop h
    obtain ⟨k', hdown, ⟨m, hsingle, hm⟩ | ⟨cell, cell', hcell, hcell', halike⟩⟩ := hR e e' he
    · exact ends_of_singles hdown (ih m k' hm pos stop (hsingle.stepEnds h))
    · obtain ⟨cell₁, hcell₁, hform⟩ := h.form
      obtain rfl := Option.some.inj (hcell.symm.trans hcell₁)
      refine ends_of_singles hdown (EndsForm.ends hcell' ?_)
      exact hform.mono (fun e e' he pos _ => ih e e' he pos) (fun e pos end_ h => h.ends.le) halike (Int.le_refl pos)

theorem EndSimulation.ends [Platform] [Platform.Bounded] {R : ExprId → ExprId → Prop}
    (hR : EndSimulation store store' R) (he : R e e') (h : Ends store text e pos stop) :
    Ends store' text e' pos stop := by
  obtain ⟨depth, hdepth⟩ := ends_iff_matchAt.1 h
  exact hR.stepEnds depth e e' he pos stop hdepth

end Pegboard.Store
