import Pegboard.Proofs.Definition.Unfolding

/-!
# The text of what is written

An expression that is written as a phrase is rendered as the text of the phrase, with two
provisos.  An expression of one member is rendered as its member in a slot, so the text may
have parentheses around it that the phrase does without.  And under a quantifier it gets no
parentheses of its own, so there is nothing to keep the quantifier from a wrapping that it
comes down to (`HidesWrap`).  Where no quantifier holds such an expression, slots are rendered
like slots of phrases (`WritesSlot.words`).
-/

namespace Pegboard

namespace Store

open Phrase (upTo map_upTo upTo_succ upTo_cons slotTexts)

/-- An expression without a name comes down to a wrapping without a name, over expressions of
one member without names. -/
inductive HidesWrap (store : Store) : ExprId → Prop where
  | last {e m member : ExprId} {wrap : Wrap} : store.Single e m → store.nameOf e = [] →
    store[m]? = some ⟨[], .unary wrap member⟩ → HidesWrap store e
  | more {e m : ExprId} : store.Single e m → store.nameOf e = [] → HidesWrap store m →
    HidesWrap store e

variable {store : Store} {rules : Rules} {e m : ExprId} {p : Phrase}

mutual

theorem Writes.hidesWrap {wrap : Wrap} {member : Phrase} : ∀ {m : ExprId} {p : Phrase},
    store.Writes rules m p → p = .unary wrap member → store.nameOf m = [] →
    ∀ e, store.Single e m → store.nameOf e = [] → store.HidesWrap e
  | _, _, .unary hcell _, _, hm, e, hsingle, he => by
    rw [nameOf, hcell] at hm
    cases hm
    exact .last hsingle he hcell
  | _, _, .single hsingle' hmember, hp, hm, _, hsingle, he =>
    .more hsingle he (hmember.hidesWrap hp _ hsingle' hm)
  | _, _, .literal _, hp, _, _, _, _ | _, _, .regex _, hp, _, _, _, _
  | _, _, .compound _ _ _, hp, _, _, _, _ => by cases hp

/-- What has one member and is written as a wrapping hides it. -/
theorem WritesSlot.hidesWrap {wrap : Wrap} {member : Phrase} : ∀ {m : ExprId} {p : Phrase},
    store.WritesSlot rules m p → p = .unary wrap member →
    ∀ e, store.Single e m → store.nameOf e = [] → store.HidesWrap e
  | _, _, .nameless hm hwrites, hp, e, hsingle, he => hwrites.hidesWrap hp hm e hsingle he
  | _, _, .rule _, hp, _, _, _ => by cases hp

end

/-! ## Texts -/

/-- An expression is rendered as a text, to any depth that is enough. -/
def RendersTo (store : Store) (e : ExprId) (text : Text) : Prop :=
  ∃ height, ∀ depth, store.renderAt depth e = upTo height depth text

/-- A slot is rendered like a slot of a phrase, of a quantifier or not. -/
def WordsSlot (store : Store) (inQuantifier : Bool) (e : ExprId) (p : Phrase) : Prop :=
  ∃ height, ∀ depth, store.memberText (store.renderAt depth) inQuantifier e =
    upTo height depth (parens (p.needsParens inQuantifier) p.rhs)

/-- An expression is rendered as a phrase, or as a slot for it if it has one member only. -/
inductive Words (store : Store) (e : ExprId) (p : Phrase) : Prop where
  | plain {cell : Cell} : store[e]? = some cell →
    (∀ inQuantifier, needsParens inQuantifier cell.form = p.needsParens inQuantifier) →
    store.RendersTo e p.rhs → Words store e p
  | single {m : ExprId} : store.Single e m →
    store.RendersTo e (parens (p.needsParens false) p.rhs) →
    (∀ wrap member, p = .unary wrap member → store.nameOf e = [] → store.HidesWrap e) → Words store e p

theorem rendersTo_of_succ {text : Text}
    (h : ∃ height, ∀ depth, store.renderAt (depth + 1) e = upTo height depth text) :
    store.RendersTo e text := by
  obtain ⟨height, h⟩ := h
  refine ⟨height + 1, fun depth => ?_⟩
  cases depth with
  | zero => rfl
  | succ depth => rw [h, upTo_succ]

/-- If each of some expressions is rendered, so are they all. -/
theorem renderAll_upTo {α : Type} {render : Nat → ExprId → Except Error Text} {id : α → ExprId}
    {text : α → Text} : ∀ {xs : List α},
    (∀ x ∈ xs, ∃ height, ∀ depth, render depth (id x) = upTo height depth (text x)) →
    ∃ height, ∀ depth, renderAll (render depth) (xs.map id) = upTo height depth (xs.map text) := by
  intro xs
  induction xs with
  | nil => exact fun _ => ⟨0, fun _ => rfl⟩
  | cons x rest ih =>
    intro h
    obtain ⟨height, hfirst⟩ := h x List.mem_cons_self
    obtain ⟨height', hrest⟩ := ih fun x' hx' => h x' (List.mem_cons_of_mem x hx')
    refine ⟨max height height', fun depth => ?_⟩
    rw [List.map_cons, renderAll, hfirst, hrest]
    exact upTo_cons _ _ _ _ _

theorem memberText_nameless {cell : Cell} (hcell : store[e]? = some cell) (hname : store.nameOf e = [])
    {text : Text} (h : store.RendersTo e text) (inQuantifier : Bool) : ∃ height, ∀ depth,
      store.memberText (store.renderAt depth) inQuantifier e =
        upTo height depth (parens (needsParens inQuantifier cell.form) text) := by
  obtain ⟨height, h⟩ := h
  refine ⟨height, fun depth => ?_⟩
  rw [nameOf, hcell, Option.map_some, Option.getD_some] at hname
  rw [memberText, hcell]
  dsimp only
  rw [hname, List.isEmpty_nil, if_pos rfl, h, map_upTo]

/-- Only a wrapping is treated otherwise under a quantifier. -/
theorem needsParens_eq (h : ∀ wrap member, p ≠ .unary wrap member) (inQuantifier : Bool) :
    p.needsParens inQuantifier = p.needsParens false := by
  cases p with
  | unary wrap member => exact absurd rfl (h wrap member)
  | literal | regex | reference | compound => rfl

/-- An expression without a name is worded in a slot, unless it hides a wrapping from a
quantifier. -/
theorem Words.slot (h : store.Words e p) (hname : store.nameOf e = []) {inQuantifier : Bool}
    (hclear : inQuantifier = true → ¬ store.HidesWrap e) : store.WordsSlot inQuantifier e p := by
  cases h with
  | plain hcell hparens hrenders =>
    have hslot := memberText_nameless hcell hname hrenders inQuantifier
    rwa [hparens] at hslot
  | single hsingle hrenders hhides =>
    obtain ⟨name, order, frozen, hcell⟩ := hsingle
    have hslot := memberText_nameless hcell hname hrenders inQuantifier
    have hsame : p.needsParens inQuantifier = p.needsParens false := by
      cases inQuantifier with
      | false => rfl
      | true => exact needsParens_eq (fun wrap member hp => hclear rfl (hhides wrap member hp hname)) true
    rwa [← hsame] at hslot

/-! ## What is written is worded -/

/-- A set of expressions that are rendered as they are written. -/
structure Legible (store : Store) (rules : Rules) (S : ExprId → Prop) : Prop where
  /-- The members of its expressions are in the set. -/
  members : ∀ e, S e → ∀ m ∈ store.membersOf e, S m
  /-- What a quantifier of the set holds does not hide a wrapping. -/
  clear : ∀ e name wrap m, S e → store[e]? = some ⟨name, .unary wrap m⟩ → isQuantifier wrap = true →
    ¬ store.HidesWrap m
  /-- Rules have their names. -/
  named : ∀ name e, rules.lookup name = some e → name ≠ [] ∧ store.nameOf e = name

theorem wordsSlot_rule {name : Text} (hname : name ≠ [] ∧ store.nameOf e = name) (inQuantifier : Bool) :
    store.WordsSlot inQuantifier e (.reference name) := by
  obtain ⟨hne, hname⟩ := hname
  rcases hcell : store[e]? with _ | cell
  · rw [nameOf, hcell] at hname
    exact absurd hname.symm hne
  · rw [nameOf, hcell, Option.map_some, Option.getD_some] at hname
    refine ⟨0, fun depth => ?_⟩
    have hempty : cell.name.isEmpty = false := by
      rw [hname]
      simpa using hne
    rw [memberText, hcell]
    dsimp only
    rw [hempty, hname]
    rfl

theorem Single.mem_membersOf (h : store.Single e m) : m ∈ store.membersOf e := by
  obtain ⟨name, order, frozen, hcell⟩ := h
  rw [membersOf_eq hcell]
  exact List.mem_cons_self

/-- An expression of one member is worded like its member in a slot. -/
theorem words_single (hsingle : store.Single e m) (hmember : store.WordsSlot false m p)
    (hhides : ∀ wrap member, p = .unary wrap member → store.nameOf e = [] → store.HidesWrap e) :
    store.Words e p := by
  refine .single hsingle (rendersTo_of_succ ?_) hhides
  obtain ⟨name, order, frozen, hcell⟩ := hsingle
  obtain ⟨height, h⟩ := hmember
  refine ⟨max height 0, fun depth => ?_⟩
  have hall : renderAll (store.memberText (store.renderAt depth) false) [m] =
      upTo (max height 0) depth [parens (p.needsParens false) p.rhs] := by
    have hnil : renderAll (store.memberText (store.renderAt depth) false) [] = upTo 0 depth [] := rfl
    rw [renderAll, h, hnil]
    exact upTo_cons _ _ _ _ _
  rw [renderAt, hcell]
  dsimp only
  rw [hall, map_upTo]
  rfl

mutual

/-- What is written as a phrase is worded as it. -/
theorem Writes.words {S : ExprId → Prop} (h : store.Legible rules S) : ∀ {e : ExprId} {p : Phrase},
    S e → store.Writes rules e p → store.Words e p
  | _, _, _, .literal hcell =>
    .plain hcell (fun _ => rfl) (rendersTo_of_succ ⟨0, fun depth => by rw [renderAt, hcell]; rfl⟩)
  | _, _, _, .regex hcell =>
    .plain hcell (fun _ => rfl) (rendersTo_of_succ ⟨0, fun depth => by rw [renderAt, hcell]; rfl⟩)
  | e, _, he, @Writes.compound _ _ _ name order members frozen ps hcell hlength hall => by
    have hS : ∀ m ∈ members, S m := by
      intro m hm
      refine h.members e he m ?_
      rwa [membersOf_eq hcell]
    obtain ⟨height, htexts⟩ := WritesAll.words h hS hall
    have hsame : members.length = ps.length := hall.forall₂.length_eq
    refine .plain hcell (fun _ => ?_) (rendersTo_of_succ ⟨height, fun depth => ?_⟩)
    · rw [needsParens, Phrase.needsParens, hsame]
    · rw [renderAt, hcell]
      dsimp only
      rw [htexts, map_upTo]
      rfl
  | e, _, he, @Writes.unary _ _ _ m name wrap p hcell hmember => by
    have hm : S m := by
      refine h.members e he m ?_
      rw [membersOf_eq hcell]
      exact List.mem_cons_self
    obtain ⟨height, htext⟩ :=
      WritesSlot.words h hm hmember (isQuantifier wrap) (h.clear e name wrap m he hcell)
    refine .plain hcell (fun _ => rfl) (rendersTo_of_succ ⟨height, fun depth => ?_⟩)
    rw [renderAt, hcell]
    dsimp only
    rw [htext, map_upTo]
    rfl
  | e, p, he, .single hsingle hmember => by
    have hslot := WritesSlot.words h (h.members e he _ hsingle.mem_membersOf) hmember false nofun
    exact words_single hsingle hslot fun wrap member hp => hmember.hidesWrap hp e hsingle

theorem WritesSlot.words {S : ExprId → Prop} (h : store.Legible rules S) : ∀ {m : ExprId} {p : Phrase},
    S m → store.WritesSlot rules m p → ∀ inQuantifier, (inQuantifier = true → ¬ store.HidesWrap m) →
    store.WordsSlot inQuantifier m p
  | _, _, _, .rule hlookup, inQuantifier, _ => wordsSlot_rule (h.named _ _ hlookup) inQuantifier
  | _, _, hm, .nameless hname hwrites, _, hclear => (Writes.words h hm hwrites).slot hname hclear

theorem WritesAll.words {S : ExprId → Prop} (h : store.Legible rules S) :
    ∀ {members : List ExprId} {ps : List Phrase}, (∀ m ∈ members, S m) →
    store.WritesAll rules members ps → ∃ height, ∀ depth,
      renderAll (store.memberText (store.renderAt depth) false) members = upTo height depth (slotTexts ps)
  | _, _, _, .nil => ⟨0, fun _ => rfl⟩
  | _, _, hS, .cons hfirst hrest => by
    obtain ⟨height, htext⟩ := WritesSlot.words h (hS _ List.mem_cons_self) hfirst false nofun
    obtain ⟨height', htexts⟩ :=
      WritesAll.words h (fun m hm => hS m (List.mem_cons_of_mem _ hm)) hrest
    refine ⟨max height height', fun depth => ?_⟩
    rw [renderAll, htext, htexts, slotTexts]
    exact upTo_cons _ _ _ _ _

end

/-- The text of a worded expression is read back as its phrase. -/
theorem Words.exists_text [Platform] (h : store.Words e p) (hp : p.Written)
    (hs : ∀ text ∈ p.literals, text.NoSurrogate) : ∃ text, store.RendersTo e text ∧
      ∀ after, ∃ c : Syntax.Spelling .expression, Syntax.Prints c p text after := by
  have hprintable := Syntax.printable_of_written hp hs
  cases h with
  | plain _ _ hrenders => exact ⟨_, hrenders, hprintable.rhs⟩
  | single _ hrenders _ =>
    refine ⟨_, hrenders, fun after => ?_⟩
    obtain ⟨t, ht⟩ := hprintable.slot after
    exact ⟨_, Syntax.prints_expression ht⟩

end Store

end Pegboard
