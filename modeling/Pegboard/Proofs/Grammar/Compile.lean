import Pegboard.Proofs.Definition.Linked
import Pegboard.Proofs.Definition.Rendering
import Pegboard.Proofs.Syntax.Bootstrap
import Pegboard.Proofs.Syntax.Engine

/-!
# What compiling a text comes to

Compiling a definition text is reading it, taking what is read for definitions, assembling
them and choosing the rule to start with.  `compileTo_of_read` and `compileTo_of_not_read`
say so in one equation each, apart from texts that nest too deep.

Every step can refuse the text for reasons of its own, and none of them fails in another
way: `compile_outcome` lists the errors, at every depth, and says from which depth on it is
no matter of the depth.  A grammar that is compiled is without loose ends, so matching with
it gives a node or nothing, or nests too deep.
-/

namespace Pegboard

open Syntax Store

theorem bind_eq_error {α β : Type} {x : Except Error α} {f : α → Except Error β} {err : Error}
    (h : x >>= f = .error err) : x = .error err ∨ ∃ a, x = .ok a ∧ f a = .error err := by
  cases x with
  | error e =>
    cases h
    exact .inl rfl
  | ok a => exact .inr ⟨a, rfl, h⟩

/-! ## Errors of what is written -/

/-- The error is about how a literal or a pattern is written. -/
def Error.IsWriting : Error → Prop
  | badLiteral _ _ | unknownFlag _ _ _ | badPattern _ _ => True
  | _ => False

/-- The error says what is wrong with a definition text: it cannot be read, a literal or a
pattern in it is wrong, or a rule is defined twice or not at all. -/
def Error.IsRefusal : Error → Prop
  | stoppedAt _ _ | duplicateRule _ | undefinedRule _ => True
  | err => err.IsWriting

theorem Error.IsWriting.isRefusal : ∀ {err : Error}, err.IsWriting → err.IsRefusal
  | .badLiteral _ _, h | .unknownFlag _ _ _, h | .badPattern _ _, h => h

namespace Syntax

variable [Platform]

theorem ofWritten_error {source written : Text} {err : Error}
    (h : Regex.Pattern.ofWritten source written = .error err) : err.IsWriting := by
  unfold Regex.Pattern.ofWritten at h
  split at h
  · cases h
    exact trivial
  · split at h
    · cases h
    · cases h
      exact trivial

/-- A spelling stands for nothing only because of how a literal or a pattern in it is
written. -/
theorem phrase_error {r : Rank} (c : Spelling r) : ∀ {n : Nat} {err : Error},
    c.phrase n = .error err → err.IsWriting := by
  induction c with
  | reference label after =>
    intro n err h
    cases h
  | literal quoted after =>
    intro n err h
    rw [Spelling.phrase, Quoted.literalPhrase] at h
    split at h
    · cases h
    · cases h
      exact trivial
  | regex quoted flags after =>
    intro n err h
    exact ofWritten_error (map_eq_error h)
  | group before inner after ih =>
    intro n err h
    exact ih h
  | negation member ih | lookahead member ih =>
    intro n err h
    exact ih (map_eq_error h)
  | quantified member quantifier after ih =>
    intro n err h
    exact ih (map_eq_error h)
  | plain atom ih =>
    intro n err h
    exact ih h
  | last term ih =>
    intro n err h
    exact ih (map_eq_error h)
  | more term rest ih ih' =>
    intro n err h
    rcases bind_eq_error h with h | ⟨first, -, h⟩
    · exact ih h
    rcases bind_eq_error h with h | ⟨others, -, h⟩
    · exact ih' h
    · cases h
  | lastBranch before terms ih =>
    intro n err h
    exact ih (map_eq_error h)
  | moreBranches before terms rest ih ih' =>
    intro n err h
    rcases bind_eq_error h with h | ⟨first, -, h⟩
    · exact ih h
    rcases bind_eq_error h with h | ⟨others, -, h⟩
    · exact ih' h
    · cases h
  | single terms ih =>
    intro n err h
    exact ih (map_eq_error h)
  | choice first rest ih ih' =>
    intro n err h
    rcases bind_eq_error h with h | ⟨ps, -, h⟩
    · exact ih h
    rcases bind_eq_error h with h | ⟨others, -, h⟩
    · exact ih' h
    · cases h

/-- Rules stand for nothing only because of how something is written, or because a label
comes twice. -/
theorem definitionsAfter_error : ∀ {rs : List RuleSpelling} {labels : List Text} {n : Nat}
    {err : Error}, definitionsAfter labels rs n = .error err →
    err.IsWriting ∨ ∃ name, err = .duplicateRule name := by
  intro rs
  induction rs with
  | nil =>
    intro labels n err h
    cases h
  | cons r rs ih =>
    intro labels n err h
    rw [definitionsAfter] at h
    rcases bind_eq_error h with h | ⟨d, -, h⟩
    · exact .inl (phrase_error r.body (map_eq_error h))
    split at h
    · cases h
      exact .inr ⟨d.label, rfl⟩
    rcases bind_eq_error h with h | ⟨ds, -, h⟩
    · exact ih h
    · cases h

end Syntax

/-! ## Definitions as a grammar -/

namespace Definition

variable {ds : List Definition}

theorem names_grammar (ds : List Definition) (start : Text) :
    (grammar ds start).table.names = ds.map label := names_rulesFrom 0 ds

theorem contains_grammar {start name : Text} :
    (grammar ds start).table.contains name = true ↔ name ∈ ds.map label := by
  rw [RuleTable.contains, grammar]
  by_cases hname : name ∈ ds.map label
  · simp [lookup_rulesFrom hname, hname]
  · simp [lookup_rulesFrom_of_not_mem hname, hname]

/-- Definitions are refused for the first reference without a rule. -/
theorem ofBuild_of_missing {target : Text}
    (h : (targets ds).find? (fun t => t ∉ ds.map label) = some target) (start : Option Text) :
    Grammar.ofBuild (assemble ds) start = .error (.undefinedRule target) := by
  have herror := assemble_runOn_missing h
  rw [Grammar.ofBuild]
  rcases hrun : (assemble ds).runOn #[] with ⟨_ | rules, store⟩
  · rw [hrun] at herror
    cases herror
    rfl
  · rw [hrun] at herror
    cases herror

/-- Definitions with a missing rule are refused. -/
theorem ofBuild_missing (h : ¬ Complete ds) (start : Option Text) :
    ∃ name, Grammar.ofBuild (assemble ds) start = .error (.undefinedRule name) := by
  obtain ⟨target, htarget⟩ := exists_missing h
  exact ⟨target, ofBuild_of_missing htarget start⟩

/-- Definitions that make a grammar are complete. -/
theorem complete_of_ofBuild {start : Option Text} {g : Grammar}
    (h : Grammar.ofBuild (assemble ds) start = .ok g) : Complete ds := by
  by_contra hmissing
  obtain ⟨name, hname⟩ := ofBuild_missing hmissing start
  rw [hname] at h
  cases h

/-- Complete definitions make a grammar if the rule to start with is one of them. -/
theorem ofBuild_complete (h : Complete ds) (hne : ds ≠ []) (start : Option Text) :
    Grammar.ofBuild (assemble ds) start =
      match start with
      | none => .ok (grammar ds ((ds.head hne).label))
      | some name => if name ∈ ds.map label then .ok (grammar ds name) else .error (.unknownRule name) := by
  rw [Grammar.ofBuild, assemble_runOn h]
  dsimp only
  match ds, hne, start with
  | d :: rest, _, none => rfl
  | d :: rest, _, some name =>
    by_cases hname : name ∈ (d :: rest).map label
    · have hlookup := lookup_rulesFrom hname
      rw [rulesFrom] at hlookup
      rw [rulesFrom, RuleTable.ofRules, hlookup, Option.isSome_some, if_pos rfl]
      simp only [if_pos hname]
      rfl
    · have hlookup := lookup_rulesFrom_of_not_mem hname
      rw [rulesFrom] at hlookup
      rw [rulesFrom, RuleTable.ofRules, hlookup, Option.isSome_none, if_neg Bool.false_ne_true]
      simp only [if_neg hname]
      rfl

/-- What the rules of complete definitions reach is without loose ends. -/
theorem closed_graph (h : Complete ds) (hlabels : (ds.map label).Nodup) :
    (graph ds).Closed ((graph ds).Reachable (rulesFrom 0 ds)) := by
  intro e he
  obtain ⟨cell, hcell, hform⟩ := (linked_graph h hlabels).resolved e he
  refine ⟨cell, hcell, hform, fun m hm => .member he ?_⟩
  rwa [membersOf_eq hcell]

/-- Matching with the grammar of complete definitions gives a node or nothing, or nests too
deep. -/
theorem parseTo_grammar [Platform] [Platform.Bounded] (h : Complete ds)
    (hlabels : (ds.map label).Nodup) {start : Text} (hstart : start ∈ ds.map label) (depth : Nat)
    (t : Text) {rule : Option Text} (hrule : ∀ name, rule = some name → name ∈ ds.map label)
    (pos : Int) :
    (∃ o, (grammar ds start).parseTo depth t rule pos = .ok o) ∨
      (grammar ds start).parseTo depth t rule pos = .error .tooDeep := by
  have hname : rule.getD start ∈ ds.map label := by
    cases rule with
    | none => exact hstart
    | some name => exact hrule name rfl
  have hlookup := lookup_rulesFrom hname
  have hroot : (graph ds).Reachable (rulesFrom 0 ds) (ruleOf ds (rule.getD start)) :=
    .root (List.mem_map_of_mem (mem_of_lookup hlookup))
  have hparse : (grammar ds start).parseTo depth t rule pos =
      (graph ds).matchAt t depth (ruleOf ds (rule.getD start)) pos := by
    simp only [Grammar.parseTo, grammar, RuleTable.rule, hlookup]
  rw [hparse]
  rcases hmatch : (graph ds).matchAt t depth (ruleOf ds (rule.getD start)) pos with err | o
  · exact .inr (by rw [matchAt_closed (closed_graph h hlabels) depth _ hroot pos err hmatch])
  · exact .inl ⟨o, rfl⟩

end Definition

/-! ## Compiling -/

namespace Syntax

variable [Platform]

/-- Rules stand for definitions one by one. -/
theorem definitionsAfter_ok : ∀ {rs : List RuleSpelling} {labels : List Text} {n : Nat}
    {ds : List Definition}, definitionsAfter labels rs n = .ok ds →
    List.Forall₂ (fun r d => d.label = r.label.text ∧ ∃ m, r.body.phrase m = .ok d.body) rs ds := by
  intro rs
  induction rs with
  | nil =>
    intro labels n ds h
    cases h
    exact .nil
  | cons r rs ih =>
    intro labels n ds h
    rw [definitionsAfter] at h
    obtain ⟨d, hd, h⟩ := bind_eq_ok h
    split at h
    · cases h
    · obtain ⟨others, hothers, h⟩ := bind_eq_ok h
      cases h
      obtain ⟨p, hp, rfl⟩ := map_eq_ok hd
      exact .cons ⟨rfl, _, hp⟩ (ih hothers)

theorem definitions_ne_nil {r : RulesSpelling} {ds : List Definition} (h : r.definitions = .ok ds) :
    ds ≠ [] := by
  rintro rfl
  cases definitionsAfter_ok h

/-- What a text stands for has distinct labels. -/
theorem nodup_definitions {r : RulesSpelling} {ds : List Definition} (h : r.definitions = .ok ds) :
    (ds.map Definition.label).Nodup := by
  have hnode : (r.node r.text fun _ => 0).toDefinitions = .ok ds :=
    (toDefinitions_node r (List.append_nil _).symm).trans h
  exact (Node.toDefinitions_eq_ok hnode).2.2

end Syntax

namespace Grammar

section

variable [Platform] [Platform.ReadsTokens]

theorem compileTo_eq : ∃ reader, SpeaksAs true definitionIds reader ∧ ∀ depth s start,
    compileTo depth s start =
      (reader.readSourceTo depth s >>= fun tree => ofTree tree start) := by
  obtain ⟨reader, hreader, hs⟩ := definitions_speaks
  refine ⟨reader, hs, fun depth s start => ?_⟩
  rw [compileTo, hreader, Except.bind]
  cases reader.readSourceTo depth s <;> rfl

/-- Compiling a text that is not read to its end. -/
theorem compileTo_of_not_read {s : Text} (h : ∀ r, readRules true s ≠ some (r, [])) (depth : Nat) :
    (∃ pos, ∀ start, compileTo depth s start = .error (.stoppedAt s pos)) ∨
      depth ≤ 18 + 13 * nesting s 0 ∧ ∀ start, compileTo depth s start = .error .tooDeep := by
  obtain ⟨reader, hs, hcompile⟩ := compileTo_eq
  simp only [hcompile, readSourceTo]
  rcases hs.parseTo_rules depth s with hparse | hparse
  · rw [hparse]
    rcases hread : readRules true s with _ | ⟨r, rest⟩
    · rcases hs.parseTo_layout depth s with hlayout | hlayout
      · simp only [Option.map_none, hlayout]
        exact .inl ⟨_, fun _ => rfl⟩
      · refine .inr ⟨hs.le_of_layout_tooDeep hlayout, fun _ => ?_⟩
        simp only [Option.map_none, hlayout]
        rfl
    · have hstop : ¬ (r.node s definitionIds).stop = s.length := by
        rw [stop_eq_length hread]
        rintro rfl
        exact h r hread
      simp only [Option.map_some, if_neg hstop]
      exact .inl ⟨_, fun _ => rfl⟩
  · rw [hparse]
    exact .inr ⟨hs.le_of_rules_tooDeep hparse, fun _ => rfl⟩

/-- Compiling a text that is read to its end assembles what it stands for, if the text does
not nest too deep. -/
theorem compileTo_of_read {s : Text} {r : RulesSpelling} (h : readRules true s = some (r, [])) :
    (∀ depth, 18 + 13 * nesting s 0 < depth → ∀ start, compileTo depth s start =
      (r.definitions >>= fun ds => ofBuild (Definition.assemble ds) start)) ∧
    ∀ depth, (∀ start, compileTo depth s start =
      (r.definitions >>= fun ds => ofBuild (Definition.assemble ds) start)) ∨
      ∀ start, compileTo depth s start = .error .tooDeep := by
  obtain ⟨reader, hs, hcompile⟩ := compileTo_eq
  have hstop : (r.node s definitionIds).stop = s.length := (stop_eq_length h).2 rfl
  have hok : ∀ depth, reader.parseTo depth s (some "rules".toText) 0 =
      .ok ((readRules true s).map fun x => x.1.node s definitionIds) → ∀ start,
      compileTo depth s start =
        (r.definitions >>= fun ds => ofBuild (Definition.assemble ds) start) := by
    intro depth hparse start
    rw [hcompile, readSourceTo, hparse, h]
    simp only [Option.map_some, if_pos hstop]
    change ofTree _ start = _
    rw [ofTree, toDefinitions_node r (readRules_text h)]
    rcases r.definitions with err | ds <;> rfl
  refine ⟨fun depth hdepth => hok depth (hs.parseTo_rules_of_nesting hdepth), fun depth => ?_⟩
  rcases hs.parseTo_rules depth s with hparse | hparse
  · exact .inl (hok depth hparse)
  · refine .inr fun start => ?_
    rw [hcompile, readSourceTo, hparse]
    rfl

/-- Compiling a text with few signs that nest. -/
theorem compile_of_nesting {s : Text} {ds : List Definition} (h : described true s = .ok ds)
    (hnesting : nesting s 0 ≤ 300) (start : Option Text) :
    compile s start = ofBuild (Definition.assemble ds) start := by
  obtain ⟨r, hread, hds⟩ := described_eq_ok h
  have hcompile := (compileTo_of_read hread).1 depthLimit (by rw [depthLimit]; omega) start
  rw [compile_eq_compileTo, hcompile, hds]
  rfl

/-- Compiling a text with few signs that nest, whose definitions make a grammar with a property
that can be computed. -/
theorem compile_of_graph {s : Text} {start : Option Text} {P : Grammar → Prop} [DecidablePred P]
    (h : succeeds (fun ds => succeeds (fun g => decide (P g)) (ofBuild (Definition.assemble ds) start))
      (described true s) = true)
    (hnesting : nesting s 0 ≤ 300) : ∃ g, compile s start = .ok g ∧ P g := by
  obtain ⟨ds, hds, h⟩ := exists_of_succeeds h
  obtain ⟨g, hg, h⟩ := exists_of_succeeds h
  exact ⟨g, (compile_of_nesting hds hnesting start).trans hg, of_decide_eq_true h⟩

/-- Where a text leads to: it nests too deep, or it is not read to its end, or what it stands
for is assembled. -/
theorem compileTo_cases (depth : Nat) (s : Text) :
    (depth ≤ 18 + 13 * nesting s 0 ∧ ∀ start, compileTo depth s start = .error .tooDeep) ∨
    (∃ pos, ∀ start, compileTo depth s start = .error (.stoppedAt s pos)) ∨
    ∃ r, readRules true s = some (r, []) ∧ ∀ start, compileTo depth s start =
      (r.definitions >>= fun ds => ofBuild (Definition.assemble ds) start) := by
  by_cases hread : ∃ r, readRules true s = some (r, [])
  · obtain ⟨r, hread⟩ := hread
    obtain ⟨henough, hotherwise⟩ := compileTo_of_read hread
    rcases Nat.lt_or_ge (18 + 13 * nesting s 0) depth with hdepth | hdepth
    · exact .inr (.inr ⟨r, hread, henough depth hdepth⟩)
    · rcases hotherwise depth with h | h
      · exact .inr (.inr ⟨r, hread, h⟩)
      · exact .inl ⟨hdepth, h⟩
  · rcases compileTo_of_not_read (fun r hr => hread ⟨r, hr⟩) depth with h | h
    · exact .inr (.inl h)
    · exact .inl h

/-- A text that is compiled is read to its end, and the grammar is what its definitions make. -/
theorem exists_ofBuild_of_compileTo {depth : Nat} {s : Text} {start : Option Text} {g : Grammar}
    (h : compileTo depth s start = .ok g) : ∃ r ds, readRules true s = some (r, []) ∧
      r.definitions = .ok ds ∧ ofBuild (Definition.assemble ds) start = .ok g := by
  rcases compileTo_cases depth s with ⟨-, hcompile⟩ | ⟨pos, hcompile⟩ | ⟨r, hread, hcompile⟩
  · rw [hcompile] at h
    cases h
  · rw [hcompile] at h
    cases h
  · rw [hcompile] at h
    obtain ⟨ds, hds, hbuild⟩ := bind_eq_ok h
    exact ⟨r, ds, hread, hds, hbuild⟩

/-- A text that is read to its end is compiled to the grammar that its definitions make, at
every depth that is enough. -/
theorem reaches_compileTo {s : Text} {r : RulesSpelling} {ds : List Definition} {start : Option Text}
    {g : Grammar} (hread : readRules true s = some (r, [])) (hds : r.definitions = .ok ds)
    (hbuild : ofBuild (Definition.assemble ds) start = .ok g) :
    Reaches (fun depth => compileTo depth s start) g := by
  obtain ⟨henough, hotherwise⟩ := compileTo_of_read hread
  rw [hds] at henough hotherwise
  refine ⟨⟨19 + 13 * nesting s 0, fun depth hle => ?_⟩, fun depth => ?_⟩
  · exact (henough depth (by omega) start).trans hbuild
  · rcases hotherwise depth with hok | hdeep
    · exact .inl ((hok start).trans hbuild)
    · exact .inr (hdeep start)

/-- A grammar that is compiled is that of definitions that are complete, and it starts with
the wanted rule or the first one. -/
theorem compileTo_eq_ok {depth : Nat} {s : Text} {start : Option Text} {g : Grammar}
    (h : compileTo depth s start = .ok g) :
    ∃ r ds name, readRules true s = some (r, []) ∧ r.definitions = .ok ds ∧
      Definition.Complete ds ∧ name ∈ ds.map Definition.label ∧ g = Definition.grammar ds name := by
  obtain ⟨r, ds, hread, hds, hbuild⟩ := exists_ofBuild_of_compileTo h
  have hcomplete := Definition.complete_of_ofBuild hbuild
  have hne := definitions_ne_nil hds
  rw [Definition.ofBuild_complete hcomplete hne] at hbuild
  split at hbuild
  · cases hbuild
    exact ⟨r, ds, _, hread, hds, hcomplete, List.mem_map_of_mem (List.head_mem hne), rfl⟩
  · split at hbuild
    · next hname =>
      cases hbuild
      exact ⟨r, ds, _, hread, hds, hcomplete, hname, rfl⟩
    · cases hbuild

/-- Compiling a text gives a grammar, or an error that says what is wrong with the text, or
that the wanted rule is not among those of the text.  Only a depth that the text nests beyond
leaves it without an answer.  With a grammar that is compiled, matching one of its rules at
any offset gives a node or nothing, unless it nests too deep. -/
theorem compile_outcome (depth : Nat) (s : Text) (start : Option Text) :
    (∃ g, compileTo depth s start = .ok g ∧
      ∀ (depth' : Nat) (t : Text) (rule : Option Text) (pos : Int),
      (∀ name, rule = some name → g.table.contains name = true) →
      (∃ o, g.parseTo depth' t rule pos = .ok o) ∨ g.parseTo depth' t rule pos = .error .tooDeep) ∨
    (∃ err, compileTo depth s start = .error err ∧ err.IsRefusal) ∨
    (∃ name g, start = some name ∧ compileTo depth s start = .error (.unknownRule name) ∧
      compileTo depth s none = .ok g ∧ g.table.contains name = false) ∨
    depth ≤ 18 + 13 * nesting s 0 ∧ compileTo depth s start = .error .tooDeep := by
  rcases compileTo_cases depth s with ⟨hdepth, hcompile⟩ | ⟨pos, hcompile⟩ | ⟨r, hread, hcompile⟩
  · exact .inr (.inr (.inr ⟨hdepth, hcompile start⟩))
  · exact .inr (.inl ⟨_, hcompile start, trivial⟩)
  simp only [hcompile]
  rcases hds : r.definitions with err | ds
  · refine .inr (.inl ⟨err, rfl, ?_⟩)
    rcases definitionsAfter_error hds with hwriting | ⟨name, rfl⟩
    · exact hwriting.isRefusal
    · exact trivial
  simp only [bind, Except.bind]
  by_cases hcomplete : Definition.Complete ds
  · have hne := definitions_ne_nil hds
    have hgood : ∀ {name}, name ∈ ds.map Definition.label → ∀ (depth' : Nat) (t : Text)
        (rule : Option Text) (pos : Int),
        (∀ n, rule = some n → (Definition.grammar ds name).table.contains n = true) →
        (∃ o, (Definition.grammar ds name).parseTo depth' t rule pos = .ok o) ∨
          (Definition.grammar ds name).parseTo depth' t rule pos = .error .tooDeep := by
      intro name hname depth' t rule pos hrule
      exact Definition.parseTo_grammar hcomplete (nodup_definitions hds) hname depth' t
        (fun n hn => Definition.contains_grammar.1 (hrule n hn)) pos
    have hfirst : (ds.head hne).label ∈ ds.map Definition.label :=
      List.mem_map_of_mem (List.head_mem hne)
    simp only [Definition.ofBuild_complete hcomplete hne]
    cases start with
    | none => exact .inl ⟨_, rfl, hgood hfirst⟩
    | some name =>
      by_cases hname : name ∈ ds.map Definition.label
      · simp only [if_pos hname]
        exact .inl ⟨_, rfl, hgood hname⟩
      · simp only [if_neg hname]
        refine .inr (.inr (.inl ⟨name, _, rfl, rfl, rfl, ?_⟩))
        rw [← Bool.not_eq_true, Definition.contains_grammar]
        exact hname
  · obtain ⟨name, hname⟩ := Definition.ofBuild_missing hcomplete start
    exact .inr (.inl ⟨_, hname, trivial⟩)

end

attribute [local instance] Platform.builtIn

/-- A rule that starts with itself compiles, and matching it gives an answer or nests too deep. -/
theorem compile_outcome_leftRecursive : ∃ g, compile "a = a \"x\"".toText none = .ok g ∧
    ∀ depth t pos, (∃ o, g.parseTo depth t none pos = .ok o) ∨
      g.parseTo depth t none pos = .error .tooDeep := by
  obtain ⟨g, hg, -⟩ : ∃ g, compile "a = a \"x\"".toText none = .ok g ∧
      g.table.start = [.char 'a'] :=
    compile_of_graph (by decide +kernel) (by decide +kernel)
  have hok := compileTo_of_compile hg
  rcases compile_outcome depthLimit "a = a \"x\"".toText none with
    ⟨g', hg', hparse⟩ | ⟨err, herr, -⟩ | ⟨name, g', hstart, -⟩ | ⟨-, hdeep⟩
  · exact ⟨g', hg', fun depth t pos => hparse depth t none pos nofun⟩
  · rw [hok] at herr
    cases herr
  · cases hstart
  · rw [hok] at hdeep
    cases hdeep

end Grammar

end Pegboard
