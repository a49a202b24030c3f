import Pegboard.Proofs.Match.Step

/-!
# What an expression matches, without a depth

The judgement `Derives store text e pos r` says what the expression `e` gives at an
offset: a node, or nothing.  Not matching is derived like matching is, so that a
negation and an ordered choice have rules of their own.  No depth occurs in it.

A match that ends derives its answer (`derives_of_matchAt`), and a derived answer is
that of every match that goes deep enough (`Derives.matchAt`).  So the judgement has
one answer at most (`Derives.functional`), and a match that does not run out of depth
gives that answer (`Derives.eq_of_matchAt`).
-/

namespace Pegboard.Store

variable [Platform]

mutual

/-- What an expression gives at an offset. -/
inductive Derives (store : Store) (text : Text) : ExprId → Int → Option Node → Prop where
  | expr {e : ExprId} {cell : Cell} {pos : Int} {o : Option (Int × List Node)} :
    store[e]? = some cell → DerivesForm store text pos cell.form o →
    Derives store text e pos (o.map (nodeOf text e cell pos))

/-- What a form gives at an offset: where it ends and its children, or nothing. -/
inductive DerivesForm (store : Store) (text : Text) :
    Int → Form → Option (Int × List Node) → Prop where
  | literal {pos : Int} {piece : Text} :
    text.startsAt piece pos = true →
    DerivesForm store text pos (.literal piece) (some (pos + piece.length, []))
  | literalFail {pos : Int} {piece : Text} :
    text.startsAt piece pos = false → DerivesForm store text pos (.literal piece) none
  | regex {pos : Int} {pattern : Regex.Pattern} {length : Nat} :
    pattern.matchLength? (text.rest pos) = some length →
    DerivesForm store text pos (.regex pattern) (some (pos + length, []))
  | regexFail {pos : Int} {pattern : Regex.Pattern} :
    pattern.matchLength? (text.rest pos) = none → DerivesForm store text pos (.regex pattern) none
  | sequence {pos : Int} {members : List ExprId} {frozen : Bool} {r : Option (List Node × Int)} :
    DerivesAll store text pos members r →
    DerivesForm store text pos (.compound .sequence members frozen)
      (r.map fun (nodes, stop) => (stop, nodes))
  | choice {pos : Int} {members : List ExprId} {frozen : Bool} {r : Option Node} :
    DerivesFirst store text pos members r →
    DerivesForm store text pos (.compound .choice members frozen)
      (r.map fun child => (child.stop, [child]))
  | lookahead {pos : Int} {member : ExprId} {r : Option Node} :
    Derives store text member pos r →
    DerivesForm store text pos (.unary .lookahead member) (r.map fun _ => (pos, []))
  | negation {pos : Int} {member : ExprId} :
    Derives store text member pos none →
    DerivesForm store text pos (.unary .negation member) (some (pos, []))
  | negationFail {pos : Int} {member : ExprId} {child : Node} :
    Derives store text member pos (some child) →
    DerivesForm store text pos (.unary .negation member) none
  | optional {pos : Int} {member : ExprId} {child : Node} :
    Derives store text member pos (some child) →
    DerivesForm store text pos (.unary .optional member) (some (child.stop, [child]))
  | optionalNone {pos : Int} {member : ExprId} :
    Derives store text member pos none →
    DerivesForm store text pos (.unary .optional member) (some (pos, []))
  | star {pos : Int} {member : ExprId} {nodes : List Node} :
    DerivesChain store text pos member nodes →
    DerivesForm store text pos (.unary .star member) (some (chainStop pos nodes, nodes))
  | plus {pos : Int} {least : Int} {member : ExprId} {nodes : List Node} :
    DerivesChain store text pos member nodes → ¬ (nodes.length : Int) < least →
    DerivesForm store text pos (.unary (.plus least) member) (some (chainStop pos nodes, nodes))
  | plusFail {pos : Int} {least : Int} {member : ExprId} {nodes : List Node} :
    DerivesChain store text pos member nodes → (nodes.length : Int) < least →
    DerivesForm store text pos (.unary (.plus least) member) none

/-- What members give one after the other: their nodes and where the last one ends. -/
inductive DerivesAll (store : Store) (text : Text) :
    Int → List ExprId → Option (List Node × Int) → Prop where
  | nil {pos : Int} : DerivesAll store text pos [] (some ([], pos))
  | fail {pos : Int} {e : ExprId} {rest : List ExprId} :
    Derives store text e pos none → DerivesAll store text pos (e :: rest) none
  | cons {pos : Int} {e : ExprId} {rest : List ExprId} {node : Node}
      {r : Option (List Node × Int)} :
    Derives store text e pos (some node) → DerivesAll store text node.stop rest r →
    DerivesAll store text pos (e :: rest) (r.map fun (nodes, stop) => (node :: nodes, stop))

/-- What the first member that matches gives. -/
inductive DerivesFirst (store : Store) (text : Text) :
    Int → List ExprId → Option Node → Prop where
  | nil {pos : Int} : DerivesFirst store text pos [] none
  | first {pos : Int} {e : ExprId} {rest : List ExprId} {node : Node} :
    Derives store text e pos (some node) → DerivesFirst store text pos (e :: rest) (some node)
  | later {pos : Int} {e : ExprId} {rest : List ExprId} {r : Option Node} :
    Derives store text e pos none → DerivesFirst store text pos rest r →
    DerivesFirst store text pos (e :: rest) r

/-- The matches of one member, one after the other, as long as they move. -/
inductive DerivesChain (store : Store) (text : Text) :
    Int → ExprId → List Node → Prop where
  | fail {pos : Int} {e : ExprId} :
    Derives store text e pos none → DerivesChain store text pos e []
  | still {pos : Int} {e : ExprId} {node : Node} :
    Derives store text e pos (some node) → node.stop = pos → DerivesChain store text pos e []
  | more {pos : Int} {e : ExprId} {node : Node} {nodes : List Node} :
    Derives store text e pos (some node) → node.stop ≠ pos →
    DerivesChain store text node.stop e nodes → DerivesChain store text pos e (node :: nodes)

end

omit [Platform] in
/-- A repetition is given more rounds than there are offsets up to the end. -/
theorem lt_roundsFrom (text : Text) (pos : Int) :
    (text.length - pos).toNat < roundsFrom text pos := Nat.lt_succ_self _

omit [Platform] in
theorem chainStop_cons (pos : Int) (n : Node) (rest : List Node) :
    chainStop pos (n :: rest) = chainStop n.stop rest := by
  cases rest with
  | nil => rfl
  | cons m ms =>
    simp only [chainStop, List.getLast?_cons]
    rfl

/-! ## A match derives its answer -/

section Sound

variable {store : Store} {text : Text} {step : ExprId → Int → Outcome}
  (hstep : ∀ e pos r, step e pos = .ok r → Derives store text e pos r)
include hstep

theorem derivesAll_of_matchAll : ∀ {members : List ExprId} {pos : Int}
    {r : Option (List Node × Int)},
    matchAll step members pos = .ok r → DerivesAll store text pos members r
  | [], _, _, h => by
    cases h
    exact .nil
  | e :: rest, pos, r, h => by
    simp only [matchAll] at h
    rcases he : step e pos with err | _ | node <;> rw [he] at h
    · cases h
    · cases h
      exact .fail (hstep e pos none he)
    · have hnode := hstep e pos (some node) he
      rcases hr : matchAll step rest node.stop with err | _ | ⟨nodes, stop⟩ <;> simp only [hr] at h
      · cases h
      · cases h
        exact .cons hnode (derivesAll_of_matchAll hr)
      · cases h
        exact .cons hnode (derivesAll_of_matchAll hr)

theorem derivesFirst_of_matchFirst : ∀ {members : List ExprId} {pos : Int} {r : Option Node},
    matchFirst step members pos = .ok r → DerivesFirst store text pos members r
  | [], _, _, h => by
    cases h
    exact .nil
  | e :: rest, pos, r, h => by
    simp only [matchFirst] at h
    rcases he : step e pos with err | _ | node <;> rw [he] at h
    · cases h
    · exact .later (hstep e pos none he) (derivesFirst_of_matchFirst h)
    · cases h
      exact .first (hstep e pos (some node) he)

-- The rounds that are left exceed the offsets that are left, and every round moves on,
-- so the rounds never run out.
theorem derivesChain_of_matchRepeat (hspans : Spans text step) {e : ExprId} :
    ∀ {rounds : Nat} {pos : Int} {nodes : List Node}, (text.length - pos).toNat < rounds →
      matchRepeat (step e) rounds pos = .ok nodes → DerivesChain store text pos e nodes
  | 0, _, _, hlt, _ => absurd hlt (Nat.not_lt_zero _)
  | rounds + 1, pos, nodes, hlt, h => by
    simp only [matchRepeat] at h
    rcases he : step e pos with err | _ | node <;> rw [he] at h
    · cases h
    · cases h
      exact .fail (hstep e pos none he)
    · dsimp only at h
      split at h
      · next hstill =>
        cases h
        exact .still (hstep e pos (some node) he) hstill
      · next hmoved =>
        rcases hr : matchRepeat (step e) rounds node.stop with err | more <;> simp only [hr] at h
        · cases h
        · cases h
          have hspan := (hspans e pos node he).2
          have hless : (text.length - node.stop).toNat < rounds := by
            unfold EndsFrom at hspan
            omega
          exact .more (hstep e pos (some node) he) hmoved
            (derivesChain_of_matchRepeat hspans hless hr)

theorem derivesForm_of_matchForm (hspans : Spans text step) {pos : Int} {form : Form}
    {o : Option (Int × List Node)} (h : matchForm text step pos form = .ok o) :
    DerivesForm store text pos form o := by
  have hrounds := lt_roundsFrom text pos
  unfold matchForm at h
  split at h
  · split at h
    · next hstarts =>
      cases h
      exact .literal hstarts
    · next hstarts =>
      cases h
      exact .literalFail (Bool.not_eq_true _ ▸ hstarts)
  · next pattern =>
    rcases hlength : pattern.matchLength? (text.rest pos) with _ | length <;> rw [hlength] at h
    · cases h
      exact .regexFail hlength
    · cases h
      exact .regex hlength
  · obtain ⟨r, hr, rfl⟩ := map_eq_ok h
    exact .sequence (derivesAll_of_matchAll hstep hr)
  · obtain ⟨r, hr, rfl⟩ := map_eq_ok h
    exact .choice (derivesFirst_of_matchFirst hstep hr)
  · obtain ⟨r, hr, rfl⟩ := map_eq_ok h
    exact .lookahead (hstep _ _ _ hr)
  · obtain ⟨_ | child, hr, rfl⟩ := map_eq_ok h
    · exact .negation (hstep _ _ _ hr)
    · exact .negationFail (hstep _ _ _ hr)
  · obtain ⟨_ | child, hr, rfl⟩ := map_eq_ok h
    · exact .optionalNone (hstep _ _ _ hr)
    · exact .optional (hstep _ _ _ hr)
  · obtain ⟨nodes, hr, rfl⟩ := map_eq_ok h
    exact .star (derivesChain_of_matchRepeat hstep hspans hrounds hr)
  · obtain ⟨nodes, hr, rfl⟩ := map_eq_ok h
    have hchain := derivesChain_of_matchRepeat hstep hspans hrounds hr
    split
    · next hfew => exact .plusFail hchain hfew
    · next henough => exact .plus hchain henough
  · cases h
  · cases h

end Sound

/-- A match that ends derives its answer. -/
theorem derives_of_matchAt [Platform.Bounded] {store : Store} {text : Text} :
    ∀ {depth : Nat} {e : ExprId} {pos : Int} {r : Option Node},
      store.matchAt text depth e pos = .ok r → Derives store text e pos r
  | 0, _, _, _, h => by cases h
  | depth + 1, e, pos, r, h => by
    rcases hc : store[e]? with _ | cell
    · rw [matchAt_none hc] at h
      cases h
    · rw [matchAt_succ hc] at h
      obtain ⟨o, ho, rfl⟩ := map_eq_ok h
      refine .expr hc (derivesForm_of_matchForm ?_ (matchAt_spans store text depth) ho)
      intro e' pos' r' h'
      exact derives_of_matchAt h'

/-! ## A derived answer is that of a match -/

theorem matchAt_extends {store : Store} {text : Text} {depth depth' : Nat} (h : depth ≤ depth') :
    Extends (store.matchAt text depth) (store.matchAt text depth') :=
  fun _ _ _ => matchAt_mono h

mutual

/-- A derived answer is that of a match at some depth. -/
theorem Derives.matchAt [Platform.Bounded] {store : Store} {text : Text} {e : ExprId} {pos : Int}
    {r : Option Node} :
    Derives store text e pos r → ∃ depth, store.matchAt text depth e pos = .ok r
  | .expr hc hform => by
    obtain ⟨depth, h⟩ := hform.matchForm
    refine ⟨depth + 1, ?_⟩
    rw [matchAt_succ hc, h]
    rfl

theorem DerivesForm.matchForm [Platform.Bounded] {store : Store} {text : Text} {pos : Int}
    {form : Form} {o : Option (Int × List Node)} : DerivesForm store text pos form o →
    ∃ depth, Store.matchForm text (store.matchAt text depth) pos form = .ok o
  | .literal hstarts => ⟨0, by simp [Store.matchForm, hstarts]⟩
  | .literalFail hstarts => ⟨0, by simp [Store.matchForm, hstarts]⟩
  | .regex hlength => ⟨0, by simp [Store.matchForm, hlength]⟩
  | .regexFail hlength => ⟨0, by simp [Store.matchForm, hlength]⟩
  | .sequence hall => by
    obtain ⟨depth, h⟩ := hall.matchAll
    exact ⟨depth, by rw [Store.matchForm, h]; rfl⟩
  | .choice hfirst => by
    obtain ⟨depth, h⟩ := hfirst.matchFirst
    exact ⟨depth, by rw [Store.matchForm, h]; rfl⟩
  | .lookahead hmember => by
    obtain ⟨depth, h⟩ := hmember.matchAt
    exact ⟨depth, by rw [Store.matchForm, h]; rfl⟩
  | .negation hmember => by
    obtain ⟨depth, h⟩ := hmember.matchAt
    exact ⟨depth, by rw [Store.matchForm, h]; rfl⟩
  | .negationFail hmember => by
    obtain ⟨depth, h⟩ := hmember.matchAt
    exact ⟨depth, by rw [Store.matchForm, h]; rfl⟩
  | .optional hmember => by
    obtain ⟨depth, h⟩ := hmember.matchAt
    exact ⟨depth, by rw [Store.matchForm, h]; rfl⟩
  | .optionalNone hmember => by
    obtain ⟨depth, h⟩ := hmember.matchAt
    exact ⟨depth, by rw [Store.matchForm, h]; rfl⟩
  | .star hchain => by
    obtain ⟨depth, h⟩ := hchain.matchRepeat
    exact ⟨depth, by rw [Store.matchForm, h _ (lt_roundsFrom text pos)]; rfl⟩
  | .plus hchain henough => by
    obtain ⟨depth, h⟩ := hchain.matchRepeat
    refine ⟨depth, ?_⟩
    rw [Store.matchForm, h _ (lt_roundsFrom text pos)]
    simp only [Except.map, if_neg henough]
  | .plusFail hchain hfew => by
    obtain ⟨depth, h⟩ := hchain.matchRepeat
    refine ⟨depth, ?_⟩
    rw [Store.matchForm, h _ (lt_roundsFrom text pos)]
    simp only [Except.map, if_pos hfew]

theorem DerivesAll.matchAll [Platform.Bounded] {store : Store} {text : Text} {pos : Int}
    {members : List ExprId} {r : Option (List Node × Int)} : DerivesAll store text pos members r →
    ∃ depth, Store.matchAll (store.matchAt text depth) members pos = .ok r
  | .nil => ⟨0, rfl⟩
  | .fail hmember => by
    obtain ⟨depth, h⟩ := hmember.matchAt
    exact ⟨depth, by rw [Store.matchAll, h]⟩
  | @DerivesAll.cons _ _ _ _ _ _ _ r hmember hrest => by
    obtain ⟨d₁, h₁⟩ := hmember.matchAt
    obtain ⟨d₂, h₂⟩ := hrest.matchAll
    refine ⟨max d₁ d₂, ?_⟩
    rw [Store.matchAll, matchAt_mono (Nat.le_max_left d₁ d₂) h₁]
    dsimp only
    rw [matchAll_mono (matchAt_extends (Nat.le_max_right d₁ d₂)) h₂]
    cases r <;> rfl

theorem DerivesFirst.matchFirst [Platform.Bounded] {store : Store} {text : Text} {pos : Int}
    {members : List ExprId} {r : Option Node} : DerivesFirst store text pos members r →
    ∃ depth, Store.matchFirst (store.matchAt text depth) members pos = .ok r
  | .nil => ⟨0, rfl⟩
  | .first hmember => by
    obtain ⟨depth, h⟩ := hmember.matchAt
    exact ⟨depth, by rw [Store.matchFirst, h]⟩
  | .later hmember hrest => by
    obtain ⟨d₁, h₁⟩ := hmember.matchAt
    obtain ⟨d₂, h₂⟩ := hrest.matchFirst
    refine ⟨max d₁ d₂, ?_⟩
    rw [Store.matchFirst, matchAt_mono (Nat.le_max_left d₁ d₂) h₁]
    exact matchFirst_mono (matchAt_extends (Nat.le_max_right d₁ d₂)) h₂

theorem DerivesChain.matchRepeat [Platform.Bounded] {store : Store} {text : Text} {pos : Int}
    {e : ExprId} {nodes : List Node} : DerivesChain store text pos e nodes →
    ∃ depth, ∀ rounds, (text.length - pos).toNat < rounds →
      Store.matchRepeat (store.matchAt text depth e) rounds pos = .ok nodes
  | .fail hmember => by
    obtain ⟨depth, h⟩ := hmember.matchAt
    refine ⟨depth, fun rounds hlt => ?_⟩
    obtain ⟨rounds, rfl⟩ := Nat.exists_eq_succ_of_ne_zero (Nat.ne_of_gt (Nat.zero_lt_of_lt hlt))
    rw [Store.matchRepeat, h]
  | .still hmember hstill => by
    obtain ⟨depth, h⟩ := hmember.matchAt
    refine ⟨depth, fun rounds hlt => ?_⟩
    obtain ⟨rounds, rfl⟩ := Nat.exists_eq_succ_of_ne_zero (Nat.ne_of_gt (Nat.zero_lt_of_lt hlt))
    rw [Store.matchRepeat, h]
    exact if_pos hstill
  | @DerivesChain.more _ _ _ _ _ node _ hmember hmoved hrest => by
    obtain ⟨d₁, h₁⟩ := hmember.matchAt
    obtain ⟨d₂, h₂⟩ := hrest.matchRepeat
    refine ⟨max d₁ d₂, fun rounds hlt => ?_⟩
    obtain ⟨rounds, rfl⟩ := Nat.exists_eq_succ_of_ne_zero (Nat.ne_of_gt (Nat.zero_lt_of_lt hlt))
    have hspan := (matchAt_spans store text d₁ e pos node h₁).2
    have hless : (text.length - node.stop).toNat < rounds := by
      unfold EndsFrom at hspan
      omega
    rw [Store.matchRepeat, matchAt_mono (Nat.le_max_left d₁ d₂) h₁]
    dsimp only
    rw [if_neg hmoved,
      matchRepeat_mono (matchAt_extends (Nat.le_max_right d₁ d₂)) (h₂ rounds hless)]

end

section Answers

variable {store : Store} {text : Text} {e : ExprId} {pos : Int} {r r' : Option Node}

/-- An expression gives one answer at most. -/
theorem Derives.functional [Platform.Bounded] (h : Derives store text e pos r)
    (h' : Derives store text e pos r') :
    r = r' := by
  obtain ⟨d, hd⟩ := h.matchAt
  obtain ⟨d', hd'⟩ := h'.matchAt
  have h₁ := matchAt_mono (Nat.le_max_left d d') hd
  have h₂ := matchAt_mono (Nat.le_max_right d d') hd'
  rw [h₁] at h₂
  exact Except.ok.inj h₂

/-- A match that ends with an answer gives the derived one. -/
theorem Derives.eq_of_matchAt [Platform.Bounded] (h : Derives store text e pos r) {depth : Nat}
    (h' : store.matchAt text depth e pos = .ok r') : r' = r :=
  (derives_of_matchAt h').functional h

/-- A derived node begins at the offset and ends where it may. -/
theorem Derives.spans [Platform.Bounded] {node : Node} (h : Derives store text e pos (some node)) :
    node.start = pos ∧ EndsFrom text pos node.stop := by
  obtain ⟨depth, hd⟩ := h.matchAt
  exact matchAt_spans store text depth e pos node hd

end Answers

end Pegboard.Store
