import Pegboard.Proofs.Definition.Order

/-!
# Grammars that are the same but for their numbers

Two grammars are isomorphic if their expressions can be paired one to one: the rules of each
name are a pair, and the expressions of a pair have the same name and kind, the same literal,
pattern or bound, and members that are pairs in the same order.  So every slot that holds a
rule in one of the grammars holds the rule of that name in the other.

Isomorphic grammars with the same rule to start with agree (`Isomorphic.agree`): at every
depth, every rule gives alike nodes at every offset of every text, or nothing in both, or the
same error.

A grammar can also be part of one that has more rules (`Embeds`).  Then its own rules match
alike in both.
-/

namespace Pegboard

namespace Store

/-- Two outcomes agree: alike nodes, with the same spans all over, or nothing twice, or the
same error. -/
inductive Agree : Outcome → Outcome → Prop where
  | error (err : Error) : Agree (.error err) (.error err)
  | nothing : Agree (.ok none) (.ok none)
  | node {n n' : Node} : n.same n' = true → n.bare = n'.bare → Agree (.ok (some n)) (.ok (some n'))

theorem agree_of_bareOutcome_eq {o o' : Outcome} (h : bareOutcome o = bareOutcome o') : Agree o o' := by
  rcases o with err | _ | n <;> rcases o' with err' | _ | n' <;>
    simp only [bareOutcome, Except.map, Option.map_none, Option.map_some, Except.ok.injEq,
      Except.error.injEq, Option.some.injEq, reduceCtorEq] at h
  · rw [h]
    exact .error err'
  · exact .nothing
  · exact .node (Node.same_of_bare_eq h) h

/-! ## What related expressions reach -/

section

variable {store store' : Store} {R : ExprId → ExprId → Prop}

theorem exists_related {α β : Type} {R : α → β → Prop} {members : List α} {members' : List β}
    (h : List.Forall₂ R members members') {m : α} (hm : m ∈ members) : ∃ m' ∈ members', R m m' := by
  induction h with
  | nil => cases hm
  | @cons a a' _ _ ha _ ih =>
    rcases List.mem_cons.1 hm with rfl | hm
    · exact ⟨a', List.mem_cons_self, ha⟩
    · obtain ⟨m', hm', hrelated⟩ := ih hm
      exact ⟨m', List.mem_cons_of_mem a' hm', hrelated⟩

/-- What one of two related expressions reaches is related to something the other reaches. -/
theorem Bisimulation.exists_reach (hR : Bisimulation store store' R) {e e' m : ExprId} (he : R e e')
    (hm : Reach store.membersOf [e] m) : ∃ m', Reach store'.membersOf [e'] m' ∧ R m m' := by
  induction hm with
  | root hroot =>
    rw [List.mem_singleton.1 hroot]
    exact ⟨e', .root (List.mem_singleton_self e'), he⟩
  | @member d m _ hmember ih =>
    obtain ⟨d', hreach, hd⟩ := ih
    obtain ⟨cell, cell', hcell, hcell', -, halike⟩ := hR d d' hd
    rw [membersOf_eq hcell] at hmember
    obtain ⟨m', hmember', hm⟩ := exists_related halike.members hmember
    exact ⟨m', .member hreach (by rwa [membersOf_eq hcell']), hm⟩

end

end Store

namespace Grammar

open Store

/-- Two grammars agree: whatever depth there is, parsing a text with a rule, or with the one
to start with, comes to the same. -/
def Agree [Platform] (g g' : Grammar) : Prop :=
  ∀ (depth : Nat) (text : Text) (rule : Option Text) (pos : Int),
    Store.Agree (g.parseTo depth text rule pos) (g'.parseTo depth text rule pos)

/-- A bisimulation between the rules of two grammars makes them agree. -/
theorem agree_of_bisimulation [Platform] {g g' : Grammar} {R : ExprId → ExprId → Prop}
    (hR : Bisimulation g.store g'.store R)
    (hrules : ∀ name, Option.Rel R (g.table.rules.lookup name) (g'.table.rules.lookup name))
    (hstart : g.table.start = g'.table.start) : g.Agree g' := by
  intro depth text rule pos
  rw [parseTo, parseTo, ← hstart]
  generalize rule.getD g.table.start = name
  have hrule := hrules name
  rw [RuleTable.rule, RuleTable.rule]
  revert hrule
  generalize g.table.rules.lookup name = found
  generalize g'.table.rules.lookup name = found'
  rintro (he | _)
  · exact agree_of_bareOutcome_eq (matchAt_bisim hR text depth _ _ he pos)
  · exact .error _

/-- A relation that pairs the expressions of two grammars. -/
structure Isomorphism (g g' : Grammar) (R : ExprId → ExprId → Prop) : Prop where
  /-- The two of a pair are alike, and so are their members. -/
  alike : Bisimulation g.store g'.store R
  /-- An expression is in one pair at most, -/
  functional : ∀ {e e₁ e₂ : ExprId}, R e e₁ → R e e₂ → e₁ = e₂
  /-- in both grammars. -/
  injective : ∀ {e₁ e₂ e' : ExprId}, R e₁ e' → R e₂ e' → e₁ = e₂
  /-- The rules of a name are a pair, or there is none in both. -/
  rules : ∀ name, Option.Rel R (g.table.rules.lookup name) (g'.table.rules.lookup name)

/-- The expressions of two grammars can be paired. -/
def Isomorphic (g g' : Grammar) : Prop := ∃ R, Isomorphism g g' R

theorem Isomorphic.agree [Platform] {g g' : Grammar} (h : g.Isomorphic g')
    (hstart : g.table.start = g'.table.start) : g.Agree g' := by
  obtain ⟨R, hR⟩ := h
  exact agree_of_bisimulation hR.alike hR.rules hstart

/-- A relation that pairs the expressions of the rules of a grammar with expressions of
another one, which can have more rules. -/
structure Embedding (g g' : Grammar) (R : ExprId → ExprId → Prop) : Prop where
  /-- The two of a pair are alike, and so are their members. -/
  alike : Bisimulation g.store g'.store R
  /-- An expression is in one pair at most, -/
  functional : ∀ {e e₁ e₂ : ExprId}, R e e₁ → R e e₂ → e₁ = e₂
  /-- in both grammars. -/
  injective : ∀ {e₁ e₂ e' : ExprId}, R e₁ e' → R e₂ e' → e₁ = e₂
  /-- Every rule is in a pair with the rule of that name. -/
  rules : ∀ {name : Text} {e : ExprId}, g.table.rules.lookup name = some e →
    ∃ e', g'.table.rules.lookup name = some e' ∧ R e e'

/-- A grammar is part of another one, up to the numbers of its expressions. -/
def Embeds (g g' : Grammar) : Prop := ∃ R, Embedding g g' R

/-- All that a rule reaches in either grammar is in a pair with something that the rule of that
name reaches in the other one. -/
theorem Embedding.covers {g g' : Grammar} {R : ExprId → ExprId → Prop} (hR : Embedding g g' R)
    {name : Text} {e : ExprId} (he : g.table.rules.lookup name = some e) :
    ∃ e', g'.table.rules.lookup name = some e' ∧
      (∀ m, Reach g.store.membersOf [e] m → ∃ m', Reach g'.store.membersOf [e'] m' ∧ R m m') ∧
      ∀ m', Reach g'.store.membersOf [e'] m' → ∃ m, Reach g.store.membersOf [e] m ∧ R m m' := by
  obtain ⟨e', he', hpair⟩ := hR.rules he
  exact ⟨e', he', fun _ hm => hR.alike.exists_reach hpair hm,
    fun _ hm' => hR.alike.flip.exists_reach hpair hm'⟩

/-- A rule of a grammar matches as it does in a grammar that this one is part of. -/
theorem Embeds.agree [Platform] {g g' : Grammar} (h : g.Embeds g') {name : Text}
    (hname : name ∈ g.table.names) (depth : Nat) (text : Text) (pos : Int) :
    Store.Agree (g.parseTo depth text (some name) pos) (g'.parseTo depth text (some name) pos) := by
  obtain ⟨R, hR⟩ := h
  obtain ⟨r, hr, hlabel⟩ := List.mem_map.1 hname
  obtain ⟨e, he⟩ := Option.isSome_iff_exists.1
    (List.lookup_isSome_iff.2 ⟨r, hr, beq_iff_eq.2 hlabel.symm⟩)
  obtain ⟨e', he', hpair⟩ := hR.rules he
  rw [parseTo, parseTo, Option.getD_some, Option.getD_some, RuleTable.rule, RuleTable.rule, he, he']
  exact agree_of_bareOutcome_eq (matchAt_bisim hR.alike text depth _ _ hpair pos)

end Grammar

namespace Definition

/-- The grammar of definitions is part of that of more definitions, in any order. -/
theorem embedding_grammar {ds ds' : List Definition} (h : Complete ds) (hlabels : (ds.map label).Nodup)
    (hlabels' : (ds'.map label).Nodup) (hsub : ∀ d ∈ ds, d ∈ ds') (start start' : Text) :
    Grammar.Embedding (grammar ds start) (grammar ds' start') (Twin ds ds') where
  alike := bisimulation_twin hlabels hlabels' hsub h
  functional := Twin.functional hlabels'
  injective := Twin.injective hlabels
  rules := by
    intro name e he
    have hname : name ∈ ds.map label := by
      by_contra hname
      cases (lookup_rulesFrom_of_not_mem hname).symm.trans he
    obtain rfl : ruleOf ds name = e := Option.some.inj ((lookup_rulesFrom hname).symm.trans he)
    have hname' : name ∈ ds'.map label := List.map_subset label hsub hname
    exact ⟨_, lookup_rulesFrom hname', twin_ruleOf hlabels hlabels' hsub hname⟩

theorem embeds_grammar {ds ds' : List Definition} (h : Complete ds) (hlabels : (ds.map label).Nodup)
    (hlabels' : (ds'.map label).Nodup) (hsub : ∀ d ∈ ds, d ∈ ds') (start start' : Text) :
    (grammar ds start).Embeds (grammar ds' start') :=
  ⟨_, embedding_grammar h hlabels hlabels' hsub start start'⟩

/-- The grammars of the same definitions are isomorphic, whatever their order. -/
theorem isomorphic_grammar {ds ds' : List Definition} (h : Complete ds)
    (hlabels : (ds.map label).Nodup) (hlabels' : (ds'.map label).Nodup)
    (hsame : ∀ d, d ∈ ds ↔ d ∈ ds') (start start' : Text) :
    (grammar ds start).Isomorphic (grammar ds' start') := by
  have hembedding := embedding_grammar h hlabels hlabels' (fun d => (hsame d).1) start start'
  refine ⟨Twin ds ds', hembedding.alike, hembedding.functional, hembedding.injective, fun name => ?_⟩
  have hnames : name ∈ ds.map label ↔ name ∈ ds'.map label := by
    simp only [List.mem_map, hsame]
  by_cases hname : name ∈ ds.map label
  · obtain ⟨e', he', hpair⟩ := hembedding.rules (lookup_rulesFrom hname)
    rw [he', grammar, lookup_rulesFrom hname]
    exact .some hpair
  · rw [grammar, grammar, lookup_rulesFrom_of_not_mem hname,
      lookup_rulesFrom_of_not_mem fun hmem => hname (hnames.2 hmem)]
    exact .none

end Definition

end Pegboard
