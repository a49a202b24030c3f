import Pegboard.Proofs.Grammar.Extension
import Pegboard.Proofs.Grammar.RoundTrip

/-!
# The definition language describes itself

The core is put together by hand, and `coreSource` says what it is meant to be.  The grammar
of definitions is what the core makes of `ruleSource`, and so reads `ruleSource` as well as
its own rendering.

Two stores that speak the same language are bisimilar, part by part, so the core agrees with
what is compiled from its description.  And whichever way the grammar of definitions is made,
from `ruleSource` with the core, from `ruleSource` with itself or from its rendering, it is
assembled from the same definitions.
-/

namespace Pegboard

namespace Syntax

open Store

/-! ## Two stores that speak the same language -/

theorem Part.alike_form {full : Bool} {ids ids' : Part → ExprId} {R : ExprId → ExprId → Prop} {p : Part}
    (h : ∀ q ∈ p.members full, R (ids q) (ids' q)) :
    Form.Alike R (p.form full ids) (p.form full ids') := by
  have hall : List.Forall₂ R ((p.members full).map ids) ((p.members full).map ids') := by
    rw [List.forall₂_map_left_iff, List.forall₂_map_right_iff, List.forall₂_same]
    exact h
  cases p <;> cases full <;>
    first
    | exact .literal _
    | exact .regex _
    | exact .unary _ (h _ List.mem_cons_self)
    | exact .compound _ _ _ hall

/-- The same part of two stores that speak the language. -/
def SamePart (full : Bool) (ids ids' : Part → ExprId) (e e' : ExprId) : Prop :=
  ∃ p : Part, (p.isExtra = true → full = true) ∧ e = ids p ∧ e' = ids' p

theorem Speaks.bisimulation {full : Bool} {store store' : Store} {ids ids' : Part → ExprId}
    (hs : Speaks full store ids) (hs' : Speaks full store' ids') :
    Bisimulation store store' (SamePart full ids ids') := by
  rintro e e' ⟨p, hp, rfl, rfl⟩
  refine ⟨_, _, hs p hp, hs' p hp, rfl, Part.alike_form fun q hq => ?_⟩
  exact ⟨q, Part.isExtra_members hp hq, rfl, rfl⟩

/-- The rules of the core, in order. -/
def coreRules : List Part :=
  [.rules, .rule, .equals, .literal, .quoted, .expression, .orTerm, .ored, .alternative, .sequence,
   .notTerm, .term, .quantified, .atom, .regex, .quantifier, .reference, .label, .layout, .blank,
   .comment]

/-- A table has parts as its rules, and starts with the first one. -/
def Tabulates (parts : List Part) (ids : Part → ExprId) (t : RuleTable) : Prop :=
  t.rules = parts.map (fun p => (p.name, ids p)) ∧ t.start = Part.rules.name

instance (parts : List Part) (ids : Part → ExprId) (t : RuleTable) :
    Decidable (Tabulates parts ids t) := inferInstanceAs (Decidable (_ ∧ _))

theorem rel_lookup {full : Bool} {ids ids' : Part → ExprId} (name : Text) : ∀ {parts : List Part},
    (∀ p ∈ parts, p.isExtra = true → full = true) →
    Option.Rel (SamePart full ids ids') ((parts.map fun p => (p.name, ids p)).lookup name)
      ((parts.map fun p => (p.name, ids' p)).lookup name)
  | [], _ => .none
  | p :: rest, h => by
    obtain ⟨hp, hrest⟩ := List.forall_mem_cons.1 h
    simp only [List.map_cons, List.lookup_cons]
    split
    · exact .some ⟨p, hp, rfl, rfl⟩
    · exact rel_lookup name hrest

/-- Grammars of the same parts agree. -/
theorem agree_of_speaks [Platform] {full : Bool} {ids ids' : Part → ExprId} {g g' : Grammar}
    {parts : List Part} (hparts : ∀ p ∈ parts, p.isExtra = true → full = true)
    (hs : Speaks full g.store ids) (hs' : Speaks full g'.store ids')
    (ht : Tabulates parts ids g.table) (ht' : Tabulates parts ids' g'.table) : g.Agree g' := by
  refine Grammar.agree_of_bisimulation (hs.bisimulation hs') (fun name => ?_) (ht.2.trans ht'.2.symm)
  rw [ht.1, ht'.1]
  exact rel_lookup name hparts

/-! ## The core and its description -/

/-- Where the parts are in the grammar that is compiled from the description of the core. -/
def compiledIds : Part → ExprId
  | .ruleList => 2
  | .rules => 3
  | .rule => 7
  | .equalsSign => 8
  | .equals => 10
  | .literal => 13
  | .quoted => 14
  | .expression => 18
  | .slash => 19
  | .orTerm => 22
  | .orTerms => 25
  | .ored => 26
  | .alternative => 29
  | .moreTerms => 32
  | .sequence => 33
  | .bang => 34
  | .notTerm => 37
  | .term => 41
  | .quantified => 44
  | .atom => 48
  | .tilde => 49
  | .flags => 51
  | .regex => 53
  | .quantifierSign => 54
  | .quantifier => 56
  | .notEquals => 59
  | .reference => 60
  | .labelText => 61
  | .label => 63
  | .layout => 65
  | .spaces => 66
  | .blank => 68
  | .comment => 69
  -- The core has no part of these.
  | .lookaheadTerm | .ampersand | .parenthesized | .opening | .closing => 70

section

variable [Platform] [Platform.ReadsTokens]

theorem core_tabulates : ∃ g, Grammar.core = .ok g ∧ Tabulates coreRules coreIds g.table := by
  have h : succeeds (fun g => decide (Tabulates coreRules coreIds g.table)) (@Grammar.core Platform.least) =
      true := by
    decide +kernel
  rw [core_least]
  obtain ⟨g, hg, ht⟩ := exists_of_succeeds h
  exact ⟨g, hg, of_decide_eq_true ht⟩

omit [Platform] [Platform.ReadsTokens] in
theorem nesting_coreSource : nesting coreSource 0 ≤ 300 := by
  rw [coreSource]
  repeat rw [ofLines_cons]
  decide +kernel

/-- The description of the core is compiled to a grammar with the parts of the core. -/
theorem compile_coreSource : ∃ g, Grammar.compile coreSource none = .ok g ∧
    Speaks false g.store compiledIds ∧ Tabulates coreRules compiledIds g.table := by
  have h : succeeds (fun ds => succeeds (fun g => decide (Speaks false g.store compiledIds ∧
      Tabulates coreRules compiledIds g.table)) (Grammar.ofBuild (Definition.assemble ds) none))
      (@described Platform.least true coreSource) = true := by
    rw [coreSource]
    repeat rw [ofLines_cons]
    decide +kernel
  obtain ⟨ds, hds, h⟩ := exists_of_succeeds h
  obtain ⟨g, hg, h⟩ := exists_of_succeeds h
  exact ⟨g, (Grammar.compile_of_nesting (described_of_least hds) nesting_coreSource none).trans hg,
    of_decide_eq_true h⟩

/-! ## The whole language and its description -/

/-- What the description of the language stands for: complete definitions, the first of which
is the one to start with, neither they nor their listing nest deep, and no literal in them
holds a surrogate. -/
theorem described_ruleSource : ∃ ds, described false ruleSource = .ok ds ∧ Definition.Complete ds ∧
    ds.head?.map Definition.label = some "rules".toText ∧
    Phrase.heightAll (ds.map Definition.phrase) ≤ depthLimit ∧
    nesting (Definition.rulesText ds) 0 ≤ 300 ∧
    ∀ d ∈ ds, ∀ text ∈ d.body.literals, text.NoSurrogate := by
  have h : succeeds (fun ds => decide (Definition.Complete ds ∧
      ds.head?.map Definition.label = some "rules".toText ∧
      Phrase.heightAll (ds.map Definition.phrase) ≤ depthLimit ∧
      nesting (Definition.rulesText ds) 0 ≤ 300 ∧
      ∀ d ∈ ds, ∀ text ∈ d.body.literals, text.NoSurrogate)) (@described Platform.least false ruleSource) =
      true := by
    rw [ruleSource]
    repeat rw [ofLines_cons]
    decide +kernel
  obtain ⟨ds, hds, h⟩ := exists_of_succeeds h
  exact ⟨ds, described_of_least hds, of_decide_eq_true h⟩

end

end Syntax

namespace Grammar

open Syntax Store Definition

section

variable [Platform] [Platform.ReadsTokens]

/-- The core agrees with the grammar that is compiled from its description. -/
theorem core_agree : ∃ core compiled, Grammar.core = .ok core ∧
    compile coreSource none = .ok compiled ∧ core.table.names = compiled.table.names ∧
    core.Agree compiled := by
  obtain ⟨core, hcore, hs⟩ := core_speaks
  obtain ⟨core', hcore', ht⟩ := core_tabulates
  obtain ⟨compiled, hcompiled, hs', ht'⟩ := compile_coreSource
  obtain rfl : core = core' := Except.ok.inj (hcore.symm.trans hcore')
  refine ⟨core, compiled, hcore, hcompiled, ?_, agree_of_speaks (by decide) hs.1 hs' ht ht'⟩
  rw [RuleTable.names, RuleTable.names, ht.1, ht'.1, List.map_map, List.map_map]
  rfl

/-- The grammar of definitions is compiled from its description and from its rendering. -/
theorem definitions_fixed : ∃ g text, definitions = .ok g ∧ compile ruleSource none = .ok g ∧
    g.render = .ok text ∧ compile text none = .ok g := by
  obtain ⟨ds, hds, hcomplete, hhead, hheight, hnesting, hliterals⟩ := described_ruleSource
  obtain ⟨d, rest, rfl⟩ : ∃ d rest, ds = d :: rest := by
    cases ds with
    | nil => cases hhead
    | cons d rest => exact ⟨d, rest, rfl⟩
  have hlabel : d.label = "rules".toText := Option.some.inj hhead
  obtain ⟨r, hread, hr⟩ := described_eq_ok hds
  have hlabels := nodup_definitions hr
  have hwritten := written_definitions hr
  -- Every way to make the grammar comes down to assembling these definitions.
  have hbuild := ofBuild_complete hcomplete (List.cons_ne_nil d rest)
  have hdefinitions := definitions_eq hds
  rw [hbuild, ← hlabel] at hdefinitions
  have hfirst : d.label ∈ (d :: rest).map label := List.mem_map_of_mem List.mem_cons_self
  simp only [if_pos hfirst] at hdefinitions
  have hsource : described true ruleSource = .ok (d :: rest) := by
    rw [described_of_read (readRules_extends hread), hr]
  obtain ⟨r', hread', hr'⟩ := readRules_rulesText (List.cons_ne_nil d rest) hwritten hliterals hlabels
  have hlisting : described true (rulesText (d :: rest)) = .ok (d :: rest) := by
    rw [described_of_read hread', hr']
  refine ⟨grammar (d :: rest) d.label, rulesText (d :: rest), hdefinitions, ?_, ?_, ?_⟩
  · rw [compile_of_nesting hsource nesting_ruleSource, hbuild]
    rfl
  · have hne : ∀ d' ∈ d :: rest, d'.label ≠ [] := fun d' hd' => (hwritten d' hd').label_ne_nil
    rw [render_eq_renderTo, renderTo_grammar hcomplete hlabels hne, startFirst_cons hlabels,
      Phrase.upTo, if_pos hheight]
  · rw [compile_of_nesting hlisting hnesting, hbuild]
    rfl

/-- The core agrees with the grammar that is compiled from its description, on every text and
for every rule.  The grammar of definitions is the grammar that is compiled from its
description, and the grammar that is compiled from its rendering, number by number, so that
the three agree on every text as well. -/
theorem definitions_selfDescribed :
    (∃ core compiled, Grammar.core = .ok core ∧ compile coreSource none = .ok compiled ∧
      core.table.names = compiled.table.names ∧ core.Agree compiled) ∧
    ∃ g text, bootstrap = .ok g ∧ definitions = .ok g ∧ compile ruleSource none = .ok g ∧
      g.render = .ok text ∧ compile text none = .ok g := by
  obtain ⟨g, text, hdefinitions, hothers⟩ := definitions_fixed
  exact ⟨core_agree, g, text, hdefinitions, hdefinitions, hothers⟩

end

attribute [local instance] Platform.builtIn

theorem definitions_selfDescribed_builtIn :
    (∃ core compiled, Grammar.core = .ok core ∧ compile coreSource none = .ok compiled ∧
      core.table.names = compiled.table.names ∧ core.Agree compiled) ∧
    ∃ g text, bootstrap = .ok g ∧ definitions = .ok g ∧ compile ruleSource none = .ok g ∧
      g.render = .ok text ∧ compile text none = .ok g :=
  definitions_selfDescribed

end Grammar

end Pegboard
