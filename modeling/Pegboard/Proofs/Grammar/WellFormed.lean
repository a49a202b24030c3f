import Mathlib.Data.Fintype.EquivFin
import Pegboard.Proofs.Definition.Wording
import Pegboard.Proofs.Grammar.RoundTrip
import Pegboard.Proofs.Match.LeftRecursion

/-!
# Rendering well-formed grammars

A grammar is well-formed if the definition language has the means for it
(`Grammar.WellFormed`): rules have labels for names, all other expressions are nameless, and a
nameless expression does not hold itself over nameless ones.  Each of its rules is written as
a definition, by induction along the nameless expressions (`WellFormed.exists_writes`).

If no quantifier holds an expression that hides a wrapping, the rules are rendered as these
definitions.  So what is rendered is compiled, and every rule of the new grammar ends where it
ends in the given one (`compile_render_wellFormed`).  Where a quantifier does hold such an
expression, parentheses are missing: a stack of two quantifiers has no definition
(`not_compile_render_stack`).
-/

namespace Pegboard

open Syntax Store

/-- The definition language can write a form: it is finished, a literal holds no surrogate, a
pattern is accepted, a sequence or a choice has members, and the bound of a repetition is one. -/
def Form.Writable [Platform] : Form → Prop
  | .literal text => text.NoSurrogate
  | .regex pattern => pattern.Accepted
  | .compound _ members _ => members ≠ []
  | .unary (.plus least) _ => least = 1
  | .unary _ _ => True
  | .reference _ _ | .unknown => False

instance [Platform] : DecidablePred Form.Writable := fun form =>
  match form with
  | .literal text => inferInstanceAs (Decidable text.NoSurrogate)
  | .regex pattern => inferInstanceAs (Decidable (Platform.accepts pattern.source pattern.flags = true))
  | .compound _ members _ => inferInstanceAs (Decidable (members ≠ []))
  | .unary (.plus least) _ => inferInstanceAs (Decidable (least = 1))
  | .unary .lookahead _ | .unary .negation _ | .unary .optional _ | .unary .star _ => .isTrue trivial
  | .reference _ _ | .unknown => .isFalse id

theorem Form.Writable.finished [Platform] : ∀ {form : Form}, form.Writable → form.Finished
  | .literal _, _ | .regex _, _ | .compound _ _ _, _ | .unary _ _, _ => trivial

/-- A wrapping that can be written is a prefix or a quantifier. -/
theorem Form.Writable.wrap [Platform] {wrap : Wrap} {m : ExprId}
    (h : (Form.unary wrap m).Writable) :
    wrap = .negation ∨ wrap = .lookahead ∨ ∃ q : Quantifier, wrap = q.wrap := by
  cases wrap with
  | negation => exact .inl rfl
  | lookahead => exact .inr (.inl rfl)
  | optional => exact .inr (.inr ⟨.optional, rfl⟩)
  | star => exact .inr (.inr ⟨.star, rfl⟩)
  | plus least =>
    obtain rfl : least = 1 := h
    exact .inr (.inr ⟨.plus, rfl⟩)

/-- Phrases can be written and read back, and their references are among some names. -/
structure Phrase.FitAll [Platform] (names : List Text) (ps : List Phrase) : Prop where
  /-- They can be written. -/
  written : WrittenAll ps
  /-- There is no surrogate in their literals. -/
  literals : ∀ text ∈ literalsAll ps, text.NoSurrogate
  /-- Their references are among the names. -/
  targets : ∀ t ∈ targetsAll ps, t ∈ names

/-- A phrase can be written and read back, and its references are among some names. -/
structure Phrase.Fits [Platform] (names : List Text) (p : Phrase) : Prop where
  /-- It can be written. -/
  written : p.Written
  /-- There is no surrogate in its literals. -/
  literals : ∀ text ∈ p.literals, text.NoSurrogate
  /-- Its references are among the names. -/
  targets : ∀ t ∈ p.targets, t ∈ names

namespace Store

/-- An expression holds one without a name. -/
def HoldsNameless (store : Store) (e m : ExprId) : Prop := m ∈ store.membersOf e ∧ store.nameOf m = []

/-- Among finitely many expressions, a relation without cycles ends. -/
theorem wellFounded_of_acyclic {S : ExprId → Prop} {r : ExprId → ExprId → Prop} {size : Nat}
    (hsize : ∀ e, S e → e < size) (hacyclic : ∀ e, S e → ¬ Relation.TransGen r e e) :
    WellFounded fun m e : { e // S e } => r e m := by
  have : Finite { e // S e } :=
    Finite.of_injective (fun e => (⟨e.1, hsize e.1 e.2⟩ : Fin size)) fun _ _ heq => Subtype.ext (Fin.mk.inj heq)
  have : IsTrans { e // S e } fun m e => Relation.TransGen r e m := ⟨fun _ _ _ hba hcb => hcb.trans hba⟩
  have : Std.Irrefl fun m e : { e // S e } => Relation.TransGen r e m := ⟨fun e => hacyclic e.1 e.2⟩
  exact Subrelation.wf .single (Finite.wellFounded_of_trans_of_irrefl fun m e : { e // S e } => Relation.TransGen r e m)

/-- If each of some expressions is written as a phrase in its slot, so are they all. -/
theorem exists_writesAll [Platform] {store : Store} {rules : Rules} {names : List Text} :
    ∀ {members : List ExprId}, (∀ m ∈ members, ∃ p, store.WritesSlot rules m p ∧ p.Fits names) →
      ∃ ps, store.WritesAll rules members ps ∧ Phrase.FitAll names ps
  | [], _ => ⟨[], .nil, trivial, nofun, nofun⟩
  | m :: rest, h => by
    obtain ⟨p, hwrites, hfits⟩ := h m List.mem_cons_self
    obtain ⟨ps, hall, hfitAll⟩ := exists_writesAll fun m' hm' => h m' (List.mem_cons_of_mem m hm')
    exact ⟨p :: ps, .cons hwrites hall, ⟨hfits.written, hfitAll.written⟩,
      List.forall_mem_append.2 ⟨hfits.literals, hfitAll.literals⟩,
      List.forall_mem_append.2 ⟨hfits.targets, hfitAll.targets⟩⟩

end Store

namespace RuleTable

/-- The rules, the one to start with first. -/
def startFirst (t : RuleTable) : Rules :=
  (t.rules.lookup t.start).toList.map (t.start, ·) ++ t.rules.filter fun r => r.1 != t.start

variable {t : RuleTable}

theorem map_snd_startFirst (t : RuleTable) : t.startFirst.map (·.2) = t.rootsFromStart := by
  rw [startFirst, rootsFromStart, List.map_append, List.map_map]
  exact congrArg (· ++ _) (List.map_id _)

theorem mem_startFirst {r : Text × ExprId} (h : r ∈ t.startFirst) : r ∈ t.rules := by
  rcases List.mem_append.1 h with h | h
  · obtain ⟨e, he, rfl⟩ := List.mem_map.1 h
    exact Definition.mem_of_lookup (Option.mem_toList.1 he)
  · exact (List.mem_filter.1 h).1

/-- In a table without double names a rule is found by its name. -/
theorem lookup_of_mem (hdistinct : t.names.Nodup) {name : Text} {e : ExprId} (h : (name, e) ∈ t.rules) :
    t.rules.lookup name = some e := by
  obtain ⟨e', he'⟩ := Option.isSome_iff_exists.1
    (List.lookup_isSome_iff.2 ⟨_, h, beq_iff_eq.2 (Eq.refl name)⟩)
  have hsame := List.inj_on_of_nodup_map hdistinct (Definition.mem_of_lookup he') h rfl
  rw [he', (Prod.mk.inj hsame).2]

theorem map_fst_startFirst (hdistinct : t.names.Nodup) (hstart : t.start ∈ t.names) :
    t.startFirst.map (·.1) = t.start :: t.names.erase t.start := by
  obtain ⟨⟨name, e⟩, hr, rfl⟩ := List.mem_map.1 hstart
  rw [startFirst, lookup_of_mem hdistinct hr, hdistinct.erase_eq_filter, names, List.filter_map]
  simp [Function.comp_def]

end RuleTable

namespace Grammar

section

variable [Platform] {g : Grammar}

/-- A grammar for which the definition language has the means. -/
structure WellFormed (g : Grammar) : Prop where
  /-- The rule to start with is one of the rules. -/
  starts : g.table.start ∈ g.table.names
  /-- No two rules have the same name. -/
  distinct : g.table.names.Nodup
  /-- The names of rules are labels. -/
  labels : ∀ name ∈ g.table.names, ∃ label : Label, label.text = name
  /-- A rule has its name. -/
  named : ∀ r ∈ g.table.rules, g.store.nameOf r.2 = r.1
  /-- What has a name is the rule of that name. -/
  rules : ∀ e, g.store.Reachable g.table.rules e → g.store.nameOf e ≠ [] →
    (g.store.nameOf e, e) ∈ g.table.rules
  /-- All forms can be written. -/
  forms : ∀ e, g.store.Reachable g.table.rules e → ∃ cell, g.store[e]? = some cell ∧ cell.form.Writable
  /-- No expression without a name holds itself over expressions without names. -/
  acyclic : ∀ e, g.store.Reachable g.table.rules e → ¬ Relation.TransGen g.store.HoldsNameless e e

/-- No quantifier holds an expression that hides a wrapping. -/
def ShowsWraps (g : Grammar) : Prop :=
  ∀ e name wrap m, g.store.Reachable g.table.rules e → g.store[e]? = some ⟨name, .unary wrap m⟩ →
    isQuantifier wrap = true → ¬ g.store.HidesWrap m

/-- A rule matches up to an offset, or does not match, at every depth that is enough. -/
def Stops (g : Grammar) (name text : Text) (pos : Int) (stop : Option Int) : Prop :=
  ∃ o, Reaches (fun depth => g.parseTo depth text (some name) pos) o ∧ o.map Node.stop = stop

/-- In a closed grammar a rule stops where its expression ends. -/
theorem stops_iff_ends [Platform.Bounded]
    (hclosed : g.store.Closed (g.store.Reachable g.table.rules)) {name : Text}
    {e : ExprId} (hlookup : g.table.rules.lookup name = some e) (text : Text) (pos : Int)
    (stop : Option Int) : g.Stops name text pos stop ↔ Ends g.store text e pos stop := by
  have hparse : ∀ depth, g.parseTo depth text (some name) pos = g.store.matchAt text depth e pos := by
    intro depth
    rw [parseTo, Option.getD_some, RuleTable.rule, hlookup]
  have hroot : g.store.Reachable g.table.rules e :=
    .root (List.mem_map_of_mem (Definition.mem_of_lookup hlookup))
  constructor
  · rintro ⟨o, ⟨⟨depth, henough⟩, -⟩, hstop⟩
    exact ends_iff_matchAt.2 ⟨depth, o, (hparse depth).symm.trans (henough depth (Nat.le_refl depth)), hstop⟩
  · rintro ⟨o, ho, hstop⟩
    obtain ⟨depth, hmatch⟩ := ho.matchAt
    refine ⟨o, ⟨⟨depth, fun depth' hle => ?_⟩, fun depth' => ?_⟩, hstop⟩
    · rw [hparse]
      exact matchAt_mono hle hmatch
    · rw [hparse]
      exact ho.matchAt_or_tooDeep hclosed hroot depth'

/-! ## Writing rules -/

namespace WellFormed

variable (h : g.WellFormed)
include h

theorem closed : g.store.Closed (g.store.Reachable g.table.rules) := by
  intro e he
  obtain ⟨cell, hcell, hform⟩ := h.forms e he
  refine ⟨cell, hcell, hform.finished, fun m hm => .member he ?_⟩
  rwa [membersOf_eq hcell]

/-- Induction along expressions without names. -/
theorem induction {P : ExprId → Prop}
    (hstep : ∀ e, g.store.Reachable g.table.rules e →
      (∀ m ∈ g.store.membersOf e, g.store.nameOf m = [] → P m) → P e) :
    ∀ e, g.store.Reachable g.table.rules e → P e := by
  have hsize : ∀ e, g.store.Reachable g.table.rules e → e < g.store.size := by
    intro e he
    obtain ⟨cell, hcell, -⟩ := h.forms e he
    exact (Array.getElem?_eq_some_iff.1 hcell).1
  intro e he
  refine (wellFounded_of_acyclic hsize h.acyclic).induction (C := fun e => P e.1) ⟨e, he⟩ ?_
  exact fun e ih => hstep e.1 e.2 fun m hm hname => ih ⟨m, .member e.2 hm⟩ ⟨hm, hname⟩

/-- What a slot of the grammar holds is written as a phrase, if what has no name is. -/
theorem exists_writesSlot {m : ExprId} (hm : g.store.Reachable g.table.rules m)
    (hnameless : g.store.nameOf m = [] → ∃ p, g.store.Writes g.table.rules m p ∧ p.Fits g.table.names) :
    ∃ p, g.store.WritesSlot g.table.rules m p ∧ p.Fits g.table.names := by
  by_cases hname : g.store.nameOf m = []
  · obtain ⟨p, hwrites, hfits⟩ := hnameless hname
    exact ⟨p, .nameless hname hwrites, hfits⟩
  · have hrule := h.rules m hm hname
    have hmem : g.store.nameOf m ∈ g.table.names := List.mem_map_of_mem (f := (·.1)) hrule
    exact ⟨_, .rule (RuleTable.lookup_of_mem h.distinct hrule), h.labels _ hmem, nofun,
      fun t ht => List.mem_singleton.1 ht ▸ hmem⟩

/-- Every expression of the grammar is written as a phrase. -/
theorem exists_writes : ∀ e, g.store.Reachable g.table.rules e →
    ∃ p, g.store.Writes g.table.rules e p ∧ p.Fits g.table.names := by
  refine h.induction fun e he ih => ?_
  obtain ⟨⟨name, form⟩, hcell, hform⟩ := h.forms e he
  have hslot : ∀ m ∈ form.members, ∃ p, g.store.WritesSlot g.table.rules m p ∧ p.Fits g.table.names := by
    intro m hm
    have hmem : m ∈ g.store.membersOf e := by rwa [membersOf_eq hcell]
    exact h.exists_writesSlot (.member he hmem) (ih m hmem)
  cases form with
  | literal text => exact ⟨_, .literal hcell, trivial, List.forall_mem_singleton.2 hform, nofun⟩
  | regex pattern => exact ⟨_, .regex hcell, hform, nofun, nofun⟩
  | compound order members frozen =>
    match members, hform with
    | [m], _ =>
      obtain ⟨p, hwrites, hfits⟩ := hslot m List.mem_cons_self
      exact ⟨p, .single ⟨name, order, frozen, hcell⟩ hwrites, hfits⟩
    | m :: m' :: rest, _ =>
      obtain ⟨ps, hall, hfits⟩ := exists_writesAll hslot
      have hlength : 1 < (m :: m' :: rest).length := by simp
      refine ⟨_, .compound hcell hlength hall, ⟨?_, hfits.written⟩, hfits.literals, hfits.targets⟩
      rwa [← hall.forall₂.length_eq]
  | unary wrap m =>
    obtain ⟨p, hwrites, hfits⟩ := hslot m List.mem_cons_self
    exact ⟨_, .unary hcell hwrites, ⟨hform.wrap, hfits.written⟩, hfits.literals, hfits.targets⟩
  | reference target place => exact hform.elim
  | unknown => exact hform.elim

theorem legible (hshows : g.ShowsWraps) :
    g.store.Legible g.table.rules (g.store.Reachable g.table.rules) where
  members _ he _ hm := .member he hm
  clear := hshows
  named name e hlookup := by
    have hrule := Definition.mem_of_lookup hlookup
    obtain ⟨label, hlabel⟩ := h.labels name (List.mem_map_of_mem (f := (·.1)) hrule)
    exact ⟨hlabel ▸ List.cons_ne_nil _ _, h.named _ hrule⟩

end WellFormed

/-! ## Rendering rules -/

/-- A rule is rendered and written as a definition with a text for its right-hand side. -/
structure IsLine (g : Grammar) (r : Text × ExprId) (d : Definition) (body : Text) : Prop where
  /-- The definition has the name of the rule. -/
  label_eq : d.label = r.1
  /-- It is what is written. -/
  writes : g.store.Writes g.table.rules r.2 d.body
  /-- It can be a definition, with references to rules. -/
  fits : d.body.Fits g.table.names
  /-- The text is what is rendered. -/
  renders : ∃ height, ∀ depth, g.store.renderRuleTo depth r.2 =
    Phrase.upTo height depth (d.label ++ " = ".toText ++ body)
  /-- It is read back. -/
  read : d.ReadFrom body

theorem WellFormed.exists_line (h : g.WellFormed) (hshows : g.ShowsWraps) :
    ∀ r ∈ g.table.rules, ∃ x : Definition × Text, g.IsLine r x.1 x.2 := by
  intro r hr
  have hreach : g.store.Reachable g.table.rules r.2 := .root (List.mem_map_of_mem hr)
  obtain ⟨p, hwrites, hfits⟩ := h.exists_writes r.2 hreach
  obtain ⟨body, ⟨height, hrenders⟩, hprints⟩ :=
    (hwrites.words (h.legible hshows) hreach).exists_text hfits.written hfits.literals
  obtain ⟨label, hlabel⟩ := h.labels r.1 (List.mem_map_of_mem hr)
  refine ⟨(⟨r.1, p⟩, body), rfl, hwrites, hfits, ⟨height, fun depth => ?_⟩, ⟨label, hlabel⟩, hprints⟩
  have hname : (g.store.nameOf r.2).isEmpty = false := by
    rw [h.named r hr, ← hlabel]
    rfl
  rw [renderRuleTo, hrenders, Phrase.map_upTo, hname, if_neg Bool.false_ne_true, h.named r hr]

section Lines

variable (h : g.WellFormed) {line : Text × ExprId → Definition × Text}
  (hline : ∀ r ∈ g.table.rules, g.IsLine r (line r).1 (line r).2)

include hline

theorem isLine_startFirst : ∀ r ∈ g.table.startFirst, g.IsLine r (line r).1 (line r).2 :=
  fun r hr => hline r (RuleTable.mem_startFirst hr)

/-- Rules are rendered one a line. -/
theorem reaches_ruleLines : Reaches g.renderTo (Definition.ruleLines (g.table.startFirst.map line)) := by
  obtain ⟨height, hrenders⟩ := renderAll_upTo fun r hr => (isLine_startFirst hline r hr).renders
  have hrender : g.renderTo = fun depth =>
      Phrase.upTo height depth (Definition.ruleLines (g.table.startFirst.map line)) := by
    funext depth
    rw [renderTo, ← RuleTable.map_snd_startFirst, hrenders, Phrase.map_upTo, Definition.ruleLines, List.map_map]
    rfl
  rw [hrender]
  exact reaches_upTo height _

include h

theorem labels_lines : ((g.table.startFirst.map line).map (·.1)).map Definition.label =
    g.table.start :: g.table.names.erase g.table.start := by
  rw [← RuleTable.map_fst_startFirst h.distinct h.starts, List.map_map, List.map_map]
  exact List.map_congr_left fun r hr => (isLine_startFirst hline r hr).label_eq

theorem nodup_labels_lines : (((g.table.startFirst.map line).map (·.1)).map Definition.label).Nodup := by
  rw [labels_lines h hline]
  exact List.nodup_cons.2 ⟨h.distinct.not_mem_erase, h.distinct.erase _⟩

theorem mem_labels_lines {name : Text} (hname : name ∈ g.table.names) :
    name ∈ ((g.table.startFirst.map line).map (·.1)).map Definition.label := by
  rw [labels_lines h hline]
  exact (List.perm_cons_erase h.starts).mem_iff.1 hname

theorem complete_lines : Definition.Complete ((g.table.startFirst.map line).map (·.1)) := by
  intro t ht
  obtain ⟨d, hd, ht⟩ := List.mem_flatMap.1 ht
  rw [List.map_map] at hd
  obtain ⟨r, hr, rfl⟩ := List.mem_map.1 hd
  exact mem_labels_lines h hline ((isLine_startFirst hline r hr).fits.targets t ht)

/-- The grammar writes the definitions of its lines. -/
theorem writesRules_lines :
    g.store.WritesRules g.table.rules ((g.table.startFirst.map line).map (·.1)) := by
  intro name e hlookup
  have hrule := Definition.mem_of_lookup hlookup
  have hname := mem_labels_lines h hline (List.mem_map_of_mem (f := (·.1)) hrule)
  rw [List.map_map, List.map_map] at hname
  obtain ⟨⟨name', e'⟩, hr, hlabel⟩ := List.mem_map.1 hname
  have hl := isLine_startFirst hline _ hr
  obtain rfl : name' = name := hl.label_eq.symm.trans hlabel
  have he := RuleTable.lookup_of_mem h.distinct (RuleTable.mem_startFirst hr)
  obtain rfl : e = e' := Option.some.inj (hlookup.symm.trans he)
  refine ⟨_, ?_, hlabel, hl.writes⟩
  rw [List.map_map]
  exact List.mem_map_of_mem (f := Prod.fst ∘ line) hr

end Lines

/-- A grammar that writes definitions stops where the grammar of the definitions does. -/
theorem stops_iff_stops_grammar [Platform.Bounded] {ds : List Definition} {start : Text}
    (hclosed : g.store.Closed (g.store.Reachable g.table.rules))
    (hwrites : g.store.WritesRules g.table.rules ds) (hcomplete : Definition.Complete ds)
    (hlabels : (ds.map Definition.label).Nodup) (hwritten : ∀ d ∈ ds, d.Written) {name : Text} {e : ExprId}
    (hlookup : g.table.rules.lookup name = some e) (text : Text) (pos : Int) (stop : Option Int) :
    g.Stops name text pos stop ↔ (Definition.grammar ds start).Stops name text pos stop := by
  obtain ⟨d, hd, hlabel, -⟩ := hwrites name e hlookup
  have hname : name ∈ ds.map Definition.label := hlabel ▸ List.mem_map_of_mem hd
  have hlookup' := Definition.lookup_rulesFrom hname
  have hwrites' := Definition.writesRules_graph hcomplete hlabels hwritten
  have hclosed' := Definition.closed_graph hcomplete hlabels
  have hstops' := stops_iff_ends (g := Definition.grammar ds start) hclosed' hlookup' text pos stop
  rw [stops_iff_ends hclosed hlookup, hstops']
  exact ⟨hwrites.ends hlabels hwrites' hlookup hlookup', hwrites'.ends hlabels hwrites hlookup' hlookup⟩

/-- Rendering gives an equivalent definition.  A well-formed grammar whose quantifiers hold no
expression that hides a wrapping is rendered, and what is rendered is compiled, at every depth
that is enough.  The new grammar has the rules of the given one, with the rule to start with
moved to the front.  At every offset of every text a rule matches up to the same offset in
both, or in neither. -/
theorem compile_render_wellFormed [Platform.ReadsTokens] (h : g.WellFormed)
    (hshows : g.ShowsWraps) : ∃ text g',
    Reaches g.renderTo text ∧ Reaches (fun depth => compileTo depth text none) g' ∧
    g'.table.names = g.table.start :: g.table.names.erase g.table.start ∧
    g'.table.start = g.table.start ∧
    ∀ name ∈ g.table.names, ∀ s pos stop, g.Stops name s pos stop ↔ g'.Stops name s pos stop := by
  have : Nonempty (Definition × Text) := ⟨(⟨[], .literal []⟩, [])⟩
  choose! line hline using h.exists_line hshows
  have hlabels := labels_lines h hline
  have hnodup := nodup_labels_lines h hline
  have hcomplete := complete_lines h hline
  have hread : ∀ x ∈ g.table.startFirst.map line, x.1.ReadFrom x.2 := by
    intro x hx
    obtain ⟨r, hr, rfl⟩ := List.mem_map.1 hx
    exact (isLine_startFirst hline r hr).read
  have hwritten : ∀ d ∈ (g.table.startFirst.map line).map (·.1), d.Written := by
    intro d hd
    rw [List.map_map] at hd
    obtain ⟨r, hr, rfl⟩ := List.mem_map.1 hd
    have hl := isLine_startFirst hline r hr
    exact ⟨hl.read.1, hl.fits.written⟩
  have hwrites := writesRules_lines h hline
  have hreaches := reaches_ruleLines hline
  generalize g.table.startFirst.map line = lines at *
  obtain ⟨x, rest, rfl⟩ : ∃ x rest, lines = x :: rest := by
    refine List.exists_cons_of_ne_nil fun hnil => ?_
    rw [hnil] at hlabels
    cases hlabels
  obtain ⟨r, hrules, hds⟩ :=
    readRules_ruleLines (List.cons_ne_nil x rest) hread (by rwa [List.map_map] at hnodup)
  have hbuild := Definition.ofBuild_complete hcomplete (List.cons_ne_nil _ _) none
  refine ⟨_, _, hreaches, reaches_compileTo hrules hds hbuild, ?_, (List.cons.inj hlabels).1,
    fun name hname s pos stop => ?_⟩
  · rw [Definition.names_grammar, hlabels]
  · obtain ⟨⟨name, e⟩, hr, rfl⟩ := List.mem_map.1 hname
    exact stops_iff_stops_grammar h.closed hwrites hcomplete hnodup hwritten
      (RuleTable.lookup_of_mem h.distinct hr) s pos stop

/-! ## Grammars that are listed bottom-up -/

/-- A grammar is well-formed if its expressions hold earlier ones only, all forms can be
written, and rules and names are in order. -/
theorem wellFormed_of_lt (hstarts : g.table.start ∈ g.table.names) (hdistinct : g.table.names.Nodup)
    (hlabels : ∀ name ∈ g.table.names, ∃ label : Label, label.text = name)
    (hnamed : ∀ r ∈ g.table.rules, r.2 < g.store.size ∧ g.store.nameOf r.2 = r.1)
    (hcells : ∀ e : Fin g.store.size, g.store[e].form.Writable ∧ (∀ m ∈ g.store[e].members, m < e.1) ∧
      (g.store[e].name ≠ [] → (g.store[e].name, e.1) ∈ g.table.rules)) : g.WellFormed := by
  have hcell : ∀ e (he : e < g.store.size), g.store[e]? = some g.store[(⟨e, he⟩ : Fin g.store.size)] :=
    fun e he => Array.getElem?_eq_getElem he
  have hmembers : ∀ e, ∀ m ∈ g.store.membersOf e, m < e ∧ e < g.store.size := by
    intro e m hm
    by_cases he : e < g.store.size
    · rw [membersOf_eq (hcell e he)] at hm
      exact ⟨(hcells ⟨e, he⟩).2.1 m hm, he⟩
    · rw [membersOf, Array.getElem?_eq_none (Nat.le_of_not_lt he)] at hm
      cases hm
  have hreach : ∀ e, g.store.Reachable g.table.rules e → e < g.store.size := by
    intro e he
    cases he with
    | root hroot =>
      obtain ⟨r, hr, rfl⟩ := List.mem_map.1 hroot
      exact (hnamed r hr).1
    | @member holder _ _ hm => exact (hmembers holder e hm).1.trans (hmembers holder e hm).2
  exact {
    starts := hstarts
    distinct := hdistinct
    labels := hlabels
    named := fun r hr => (hnamed r hr).2
    rules := fun e he => by
      have hsize := hreach e he
      rw [nameOf, hcell e hsize]
      exact (hcells ⟨e, hsize⟩).2.2
    forms := fun e he => ⟨_, hcell e (hreach e he), (hcells ⟨e, hreach e he⟩).1⟩
    acyclic := fun e _ => not_transGen_of_ranked (fun e n => e = n)
      (fun e n m hn hm => ⟨m, hn ▸ (hmembers e m hm.1).1, rfl⟩) e e rfl }

end

/-- The rules `a` and `b`.  The choice in `a` has a sequence around it, and `b` holds nothing
but `a`. -/
def wrapped : Grammar :=
  ⟨#[⟨[], .literal ['x']⟩, ⟨[], .literal ['y']⟩, ⟨[], .compound .choice [0, 1] false⟩,
    ⟨[], .compound .sequence [2] false⟩, ⟨['a'], .unary .optional 3⟩,
    ⟨['b'], .compound .sequence [4] false⟩], ⟨[(['a'], 4), (['b'], 5)], ['b']⟩⟩

/-- The rule `a`, in which a sequence stands between two quantifiers. -/
def stack : Grammar :=
  ⟨#[⟨[], .literal ['x']⟩, ⟨[], .unary .optional 0⟩, ⟨[], .compound .sequence [1] false⟩,
    ⟨['a'], .unary .optional 2⟩], ⟨[(['a'], 3)], ['a']⟩⟩

theorem exists_label_ab : ∀ name ∈ [[.char 'a'], [.char 'b']], ∃ label :
    Label, label.text = name := by
  intro name hname
  simp only [List.mem_cons, List.not_mem_nil, or_false] at hname
  rcases hname with rfl | rfl
  · exact ⟨⟨'a', [], by decide, List.forall_mem_nil _⟩, rfl⟩
  · exact ⟨⟨'b', [], by decide, List.forall_mem_nil _⟩, rfl⟩

attribute [local instance] Platform.builtIn

theorem wellFormed_wrapped : wrapped.WellFormed :=
  wellFormed_of_lt (by decide) (by decide) exists_label_ab (by decide) (by decide)

theorem wellFormed_stack : stack.WellFormed :=
  wellFormed_of_lt (by decide) (by decide)
    (fun name hname => exists_label_ab name (List.mem_cons.2 (.inl (List.mem_singleton.1 hname))))
    (by decide) (by decide)

theorem showsWraps_wrapped : wrapped.ShowsWraps := by
  intro e name wrap m _ hcell hquantifier hhides
  have hchoice : ∀ m, ¬ wrapped.store.Single 2 m := by
    rintro m ⟨name, order, frozen, hcell⟩
    cases hcell
  match e with
  | 0 | 1 | 2 | 3 | 5 | _ + 6 => cases hcell
  | 4 =>
    cases hcell
    cases hhides with
    | last hsingle _ hwrap =>
      obtain ⟨name, order, frozen, hcell⟩ := hsingle
      cases hcell
      cases hwrap
    | more hsingle _ hhides =>
      obtain ⟨name, order, frozen, hcell⟩ := hsingle
      cases hcell
      cases hhides with
      | last hsingle _ _ => exact hchoice _ hsingle
      | more hsingle _ _ => exact hchoice _ hsingle

/-- The sequences of one member leave no trace in the text, and the rules match as before. -/
theorem compile_render_wellFormed_wrapped : wrapped.WellFormed ∧ wrapped.ShowsWraps ∧
    wrapped.render = .ok "b = a\na = (\"x\" / \"y\")?".toText ∧
    ∃ g', Reaches (fun depth => compileTo depth "b = a\na = (\"x\" / \"y\")?".toText none) g' ∧
      g'.table.names = [[.char 'b'], [.char 'a']] ∧
      (∀ name ∈ [[.char 'a'], [.char 'b']], ∀ s pos stop,
        wrapped.Stops name s pos stop ↔ g'.Stops name s pos stop) ∧
      g'.Stops ['b'] "yx".toText 0 (some 1) := by
  have hrender : wrapped.renderTo depthLimit = .ok "b = a\na = (\"x\" / \"y\")?".toText := rfl
  obtain ⟨text, g', htext, hcompile, hnames, -, hstops⟩ :=
    compile_render_wellFormed wellFormed_wrapped showsWraps_wrapped
  obtain rfl : "b = a\na = (\"x\" / \"y\")?".toText = text := by
    rcases htext.otherwise depthLimit with h | h <;> rw [hrender] at h
    · exact Except.ok.inj h
    · cases h
  have hstop : wrapped.Stops ['b'] "yx".toText 0 (some 1) :=
    (stops_iff_ends wellFormed_wrapped.closed rfl _ _ _).2 (ends_iff_matchAt.2 ⟨5, _, rfl, rfl⟩)
  exact ⟨wellFormed_wrapped, showsWraps_wrapped, hrender, g', hcompile, hnames, hstops,
    (hstops ['b'] (by decide) _ _ _).1 hstop⟩

/-- The text of the stack has the two quantifiers one after the other, and no definition reads
like this. -/
theorem not_compile_render_stack : stack.WellFormed ∧ stack.render = .ok "a = \"x\"??".toText ∧
    ∀ depth g, compileTo depth "a = \"x\"??".toText none ≠ .ok g := by
  refine ⟨wellFormed_stack, rfl, fun depth g hg => ?_⟩
  obtain ⟨r, ds, hread, -⟩ := exists_ofBuild_of_compileTo hg
  have hnot : (readRules true "a = \"x\"??".toText).map (·.2) ≠ some [] := by decide +kernel
  exact hnot (by rw [hread]; rfl)

end Grammar

end Pegboard
