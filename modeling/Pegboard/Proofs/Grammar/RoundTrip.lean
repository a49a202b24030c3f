import Mathlib.Data.List.Nodup
import Pegboard.Proofs.Grammar.Compile
import Pegboard.Proofs.Grammar.Isomorphism
import Pegboard.Proofs.Syntax.Engine
import Pegboard.Proofs.Syntax.Rendered

/-!
# Rendering a grammar and compiling it again

A grammar that is compiled from a text is the grammar of the definitions that the text stands
for.  Its rendering lists these definitions one a line, the one to start with in front.  The
listing is read back as just these definitions, in that order.  So it is compiled to the
grammar of the same definitions in another order, which is isomorphic to the first one
(`compile_render`).

A literal with a surrogate has no written form that is read back, so the grammar must have
none.
-/

namespace Pegboard

open Syntax Store

/-! ## Grammars without surrogates -/

/-- The form is not a literal with a surrogate. -/
def Form.NoSurrogate : Form → Prop
  | .literal text => text.NoSurrogate
  | _ => True

instance : (form : Form) → Decidable form.NoSurrogate
  | .literal text => inferInstanceAs (Decidable text.NoSurrogate)
  | .regex _ | .compound _ _ _ | .unary _ _ | .reference _ _ | .unknown => inferInstanceAs (Decidable True)

/-- No literal that the rules reach holds a surrogate. -/
def Store.NoSurrogate (store : Store) (rules : Rules) : Prop :=
  ∀ e cell, store.Reachable rules e → store[e]? = some cell → cell.form.NoSurrogate

theorem Store.noSurrogate_of_forall {store : Store} (h : ∀ cell ∈ store, cell.form.NoSurrogate)
    (rules : Rules) :
    store.NoSurrogate rules :=
  fun _ _ _ hcell => h _ (Array.mem_of_getElem? hcell)

namespace Phrase

variable {store : Store} {rules : Rules}

mutual

/-- A phrase that stands in such a store has no surrogate in its literals. -/
theorem noSurrogate_of_stands (hs : store.NoSurrogate rules) : ∀ {p : Phrase} {e : ExprId},
    p.Stands store rules e → store.Reachable rules e → ∀ text ∈ p.literals, text.NoSurrogate
  | literal text, e, ⟨name, hcell⟩, he, text', htext => by
    rw [List.mem_singleton.1 htext]
    exact hs e _ he hcell
  | regex _, _, _, _, _, htext => nomatch htext
  | reference _, _, _, _, _, htext => nomatch htext
  | compound _ members, e, ⟨name, slots, hcell, hall⟩, he, text, htext =>
    noSurrogate_of_standAll hs hall (fun m hm => .member he (membersOf_eq hcell ▸ hm)) text htext
  | unary _ member, e, ⟨name, slot, hcell, hmember⟩, he, text, htext =>
    noSurrogate_of_stands hs hmember (.member he (membersOf_eq hcell ▸ List.mem_singleton_self slot)) text htext

theorem noSurrogate_of_standAll (hs : store.NoSurrogate rules) : ∀ {ps : List Phrase}
    {slots : List ExprId},
    StandAll store rules ps slots → (∀ m ∈ slots, store.Reachable rules m) →
    ∀ text ∈ literalsAll ps, text.NoSurrogate
  | [], _, _, _, _, htext => nomatch htext
  | p :: rest, _, ⟨e, others, rfl, hfirst, hrest⟩, hreach, text, htext => by
    rcases List.mem_append.1 htext with htext | htext
    · exact noSurrogate_of_stands hs hfirst (hreach e List.mem_cons_self) text htext
    · exact noSurrogate_of_standAll hs hrest (fun m hm => hreach m (List.mem_cons_of_mem e hm)) text htext

end

end Phrase

namespace Definition

variable {ds : List Definition} {start : Text}

theorem literals_phrase (d : Definition) : d.phrase.literals = d.body.literals := by
  obtain ⟨label, body⟩ := d
  cases body <;> rfl

/-- The definitions of such a grammar have no surrogate in their literals. -/
theorem noSurrogate_of_graph (h : Complete ds) (hs : (graph ds).NoSurrogate (rulesFrom 0 ds)) :
    ∀ d ∈ ds, ∀ text ∈ d.body.literals, text.NoSurrogate := by
  intro d hd
  have hstand := stand_rulesFrom (holds_toArray _) fun t ht => lookup_rulesFrom (h t ht)
  obtain ⟨r, hr, -, hstands⟩ := exists_related hstand hd
  rw [← literals_phrase]
  exact Phrase.noSurrogate_of_stands hs hstands (.root (List.mem_map_of_mem hr))

/-! ## The definition to start with in front -/

theorem exists_startFirst (hstart : start ∈ ds.map label) : ∃ d ∈ ds, d.label = start ∧
    startFirst ds start = d :: ds.filter fun d => d.label != start := by
  rcases hfind : ds.find? fun d => d.label == start with _ | d
  · obtain ⟨d, hd, hlabel⟩ := List.mem_map.1 hstart
    exact absurd (beq_iff_eq.2 hlabel) (List.find?_eq_none.1 hfind d hd)
  · refine ⟨d, List.mem_of_find?_eq_some hfind, by simpa using List.find?_some hfind, ?_⟩
    rw [startFirst, hfind]
    rfl

/-- Definitions that have the one to start with in front stay as they are. -/
theorem startFirst_cons {d : Definition} {rest : List Definition}
    (hlabels : ((d :: rest).map label).Nodup) : startFirst (d :: rest) d.label = d :: rest := by
  rw [List.map_cons, List.nodup_cons] at hlabels
  have hrest : rest.filter (fun d' => d'.label != d.label) = rest := by
    refine List.filter_eq_self.2 fun d' hd' => bne_iff_ne.2 fun heq => hlabels.1 ?_
    rw [← heq]
    exact List.mem_map_of_mem hd'
  have hfind : (d :: rest).find? (fun d' => d'.label == d.label) = some d :=
    List.find?_cons_of_pos (beq_self_eq_true d.label)
  rw [startFirst, hfind, List.filter_cons_of_neg (by simp), hrest]
  rfl

section

variable (hlabels : (ds.map label).Nodup) (hstart : start ∈ ds.map label)
include hlabels hstart

theorem labels_startFirst :
    (startFirst ds start).map label = start :: (ds.map label).erase start := by
  obtain ⟨d, -, hlabel, hfirst⟩ := exists_startFirst hstart
  rw [hfirst, List.map_cons, hlabel, hlabels.erase_eq_filter, List.filter_map]
  rfl

theorem nodup_startFirst : ((startFirst ds start).map label).Nodup := by
  rw [labels_startFirst hlabels hstart]
  exact List.nodup_cons.2 ⟨hlabels.not_mem_erase, hlabels.erase start⟩

theorem startFirst_startFirst : startFirst (startFirst ds start) start = startFirst ds start := by
  have hnodup := nodup_startFirst hlabels hstart
  obtain ⟨d, -, hlabel, hfirst⟩ := exists_startFirst hstart
  rw [hfirst] at hnodup ⊢
  rw [← hlabel] at hnodup ⊢
  exact startFirst_cons hnodup

/-- No definition is lost or added. -/
theorem mem_startFirst_iff (d : Definition) : d ∈ ds ↔ d ∈ startFirst ds start := by
  refine ⟨fun hd => ?_, mem_startFirst⟩
  obtain ⟨d', hd', hlabel', hfirst⟩ := exists_startFirst hstart
  rw [hfirst, List.mem_cons, List.mem_filter]
  by_cases hlabel : d.label = start
  · exact .inl (List.inj_on_of_nodup_map hlabels hd hd' (hlabel.trans hlabel'.symm))
  · exact .inr ⟨hd, bne_iff_ne.2 hlabel⟩

theorem complete_startFirst (h : Complete ds) : Complete (startFirst ds start) := by
  intro t ht
  obtain ⟨d, hd, ht⟩ := List.mem_flatMap.1 ht
  obtain ⟨d', hd', hlabel⟩ := List.mem_map.1 (h t (List.mem_flatMap.2 ⟨d, mem_startFirst hd, ht⟩))
  rw [← hlabel]
  exact List.mem_map_of_mem ((mem_startFirst_iff hlabels hstart d').1 hd')

end

/-! ## Definitions that are written -/

theorem Written.label_ne_nil [Platform] {d : Definition} (h : d.Written) : d.label ≠ [] := by
  obtain ⟨⟨label, hlabel⟩, -⟩ := h
  rw [← hlabel]
  exact List.cons_ne_nil _ _

/-- What a text stands for can be written again. -/
theorem written_definitions [Platform] {r : RulesSpelling} (h : r.definitions = .ok ds) :
    ∀ d ∈ ds, d.Written := by
  have hall := definitionsAfter_ok h
  clear h
  generalize r.rules = rs at hall
  induction hall with
  | nil => nofun
  | @cons r d rs ds hfirst _ ih =>
    obtain ⟨hlabel, m, hbody⟩ := hfirst
    exact List.forall_mem_cons.2 ⟨⟨⟨r.label, hlabel.symm⟩, written_phrase r.body hbody⟩, ih⟩

/-- Written definitions that are complete are read back from their listing, and compiled to
their grammar. -/
theorem reaches_rulesText [Platform] [Platform.ReadsTokens] {d : Definition}
    {rest : List Definition} (h : Complete (d :: rest)) (hwritten : ∀ d' ∈ d :: rest, d'.Written)
    (hs : ∀ d' ∈ d :: rest, ∀ text ∈ d'.body.literals, text.NoSurrogate)
    (hlabels : ((d :: rest).map label).Nodup) :
    Reaches (fun depth => Grammar.compileTo depth (rulesText (d :: rest)) none)
      (grammar (d :: rest) d.label) := by
  obtain ⟨r, hread, hds⟩ := readRules_rulesText (List.cons_ne_nil d rest) hwritten hs hlabels
  exact Grammar.reaches_compileTo hread hds (ofBuild_complete h (List.cons_ne_nil d rest) none)

end Definition

theorem reaches_upTo {α : Type} (height : Nat) (value : α) :
    Reaches (fun depth => Phrase.upTo height depth value) value := by
  refine ⟨⟨height, fun depth hle => if_pos hle⟩, fun depth => ?_⟩
  unfold Phrase.upTo
  split
  · exact .inl rfl
  · exact .inr rfl

namespace Grammar

open Definition

/-- A grammar that is compiled from a text, and holds no surrogate in its literals, is
rendered, and the rendering is compiled again, at every depth that is enough for it.  The
second grammar has the rules of the first one, with the rule to start with moved to the front,
and starts with the same rule.  The two are isomorphic.  So they are rendered alike, and they
agree on every text. -/
theorem compile_render [Platform] [Platform.ReadsTokens] {depth : Nat} {s : Text}
    {start : Option Text} {g : Grammar} (h : compileTo depth s start = .ok g)
    (hs : g.store.NoSurrogate g.table.rules) :
    ∃ text g₂, Reaches g.renderTo text ∧ Reaches (fun depth => compileTo depth text none) g₂ ∧
      g₂.table.names = g.table.start :: g.table.names.erase g.table.start ∧
      g₂.table.start = g.table.start ∧ g.Isomorphic g₂ ∧
      g₂.renderTo = g.renderTo ∧ g.Agree g₂ := by
  obtain ⟨r, ds, name, hread, hds, hcomplete, hname, rfl⟩ := compileTo_eq_ok h
  have hlabels := nodup_definitions hds
  have hwritten := written_definitions hds
  have hliterals := noSurrogate_of_graph hcomplete hs
  have hne : ∀ d ∈ ds, d.label ≠ [] := fun d hd => (hwritten d hd).label_ne_nil
  have hrender := renderTo_grammar hcomplete hlabels hne name
  have hrender₂ := renderTo_grammar (complete_startFirst hlabels hname hcomplete)
    (nodup_startFirst hlabels hname) (fun d hd => hne d (mem_startFirst hd)) name
  rw [startFirst_startFirst hlabels hname] at hrender₂
  have hisomorphic := isomorphic_grammar hcomplete hlabels (nodup_startFirst hlabels hname)
    (mem_startFirst_iff hlabels hname) name name
  refine ⟨rulesText (startFirst ds name), grammar (startFirst ds name) name, ?_, ?_, ?_, rfl,
    hisomorphic, funext fun depth => (hrender₂ depth).trans (hrender depth).symm,
    hisomorphic.agree rfl⟩
  · rw [funext hrender]
    exact reaches_upTo _ _
  · obtain ⟨d, hd, hlabel, hfirst⟩ := exists_startFirst hname
    have hreaches := @reaches_rulesText _ _ d (ds.filter fun d => d.label != name)
    rw [← hfirst, hlabel] at hreaches
    exact hreaches (complete_startFirst hlabels hname hcomplete)
      (fun d' hd' => hwritten d' (mem_startFirst hd')) (fun d' hd' => hliterals d' (mem_startFirst hd'))
      (nodup_startFirst hlabels hname)
  · rw [names_grammar, names_grammar, labels_startFirst hlabels hname]
    rfl

/-- Two rules that refer to each other, with a group and a flag. -/
def groupedSource : Text := "a = b / \"x\"\nb = (\"y\" a)+ !~\"z\"i".toText

attribute [local instance] Platform.builtIn

theorem compile_groupedSource : ∃ g, compile groupedSource (some ['b']) = .ok g ∧
    (g.table.start = [.char 'b'] ∧ g.table.names = [[.char 'a'], [.char 'b']]) ∧
    ∀ cell ∈ g.store, cell.form.NoSurrogate :=
  compile_of_graph (by decide +kernel) (by decide +kernel)

/-- Starting with the second of two rules, rendering puts it in front. -/
theorem compile_render_groupedSource : ∃ g text g₂, compile groupedSource (some ['b']) = .ok g ∧
    g.store.NoSurrogate g.table.rules ∧
    Reaches g.renderTo text ∧ Reaches (fun depth => compileTo depth text none) g₂ ∧
    g₂.table.names = [[.char 'b'], [.char 'a']] ∧ g₂.table.start = [.char 'b'] ∧ g.Isomorphic g₂ ∧
    g₂.renderTo = g.renderTo ∧ g.Agree g₂ := by
  obtain ⟨g, hg, ⟨hstart, hnames⟩, hcells⟩ := compile_groupedSource
  have hs := Store.noSurrogate_of_forall hcells g.table.rules
  obtain ⟨text, g₂, hrender, hcompile, hnames₂, hstart₂, hsame⟩ :=
    compile_render (compileTo_of_compile hg) hs
  rw [hstart, hnames] at hnames₂
  exact ⟨g, text, g₂, hg, hs, hrender, hcompile, hnames₂, hstart₂.trans hstart, hsame⟩

end Grammar

end Pegboard
