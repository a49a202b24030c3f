import Pegboard.Proofs.Syntax.Faults
import Pegboard.Regex.Engine

/-!
# Why a definition text is refused

A definition text that is matched as a whole may still be refused, and the tree of the match
shows why.  The first rule that is wrong decides: for the first literal or pattern in it that
is wrong, or for a label that an earlier rule has.  If no rule is wrong, the first reference to
a rule that is not defined decides, then the rule to start with.  `refusalOf` says so of the
nodes of rules, and compiling comes to nothing else (`compile_refusal`).
-/

namespace Pegboard

open Syntax

/-- Why rules are refused, by their nodes in the tree of a definition text. -/
def refusalOf [Platform] (rules : List Node) (start : Option Text) : Option Error :=
  let defined := rules.map Node.ruleLabel
  let undefined := (rules.flatMap Node.targets).find? fun t => !defined.contains t
  Node.firstWrong? rules <|> undefined.map .undefinedRule <|>
    (start.filter fun name => !defined.contains name).map .unknownRule

/-- The definitions that rules are read as have their labels and refer to what their references
name. -/
theorem labels_targets_of_forall₂ [Platform] {rules : List Node} {ds : List Definition}
    (hrules : ∀ r ∈ rules, Reports [r] (r.toDefinition.map fun d => d.body.targets))
    (h : List.Forall₂ (fun r d => r.toDefinition = .ok d) rules ds) :
    ds.map Definition.label = rules.map Node.ruleLabel ∧ Definition.targets ds = rules.flatMap Node.targets := by
  induction h with
  | nil => exact ⟨rfl, rfl⟩
  | @cons r d rules ds hd _ ih =>
    obtain ⟨hr, hrest⟩ := List.forall_mem_cons.1 hrules
    obtain ⟨hlabels, htargets⟩ := ih hrest
    have htarget := (reports_singleton.1 hr).2 (congrArg _ hd)
    rw [List.map_cons, List.map_cons, hlabels, (Node.toDefinition_eq_ok hd).1]
    rw [Definition.targets, List.flatMap_cons, List.flatMap_cons, ← Definition.targets, htargets, htarget]
    exact ⟨rfl, rfl⟩

/-- Definitions are refused when they are assembled for a reference or the rule to start with. -/
theorem refusal?_ofBuild {ds : List Definition} (hne : ds ≠ []) (start : Option Text) :
    refusal? (Grammar.ofBuild (Definition.assemble ds) start) =
      (((Definition.targets ds).find? fun t => !(ds.map Definition.label).contains t).map .undefinedRule <|>
        (start.filter fun name => !(ds.map Definition.label).contains name).map .unknownRule) := by
  have hundefined : (fun t => !(ds.map Definition.label).contains t) = fun t => t ∉ ds.map Definition.label := by
    funext t
    rw [List.contains_eq_mem, decide_not]
  rw [hundefined]
  rcases hmissing : (Definition.targets ds).find? fun t => t ∉ ds.map Definition.label with _ | name
  · have hcomplete : Definition.Complete ds := fun t ht => by
      simpa using List.find?_eq_none.1 hmissing t ht
    rw [Definition.ofBuild_complete hcomplete hne]
    cases start with
    | none => rfl
    | some name =>
      by_cases hname : name ∈ ds.map Definition.label
      · simp only [Option.filter_some, hname, not_true_eq_false, decide_false]
        rfl
      · simp only [Option.filter_some, hname, not_false_eq_true, decide_true]
        rfl
  · rw [Definition.ofBuild_of_missing hmissing]
    rfl

/-- Rules are refused for what `refusalOf` says. -/
theorem refusal?_of_reports [Platform] {rules : List Node} (hne : rules ≠ [])
    (hrules : ∀ r ∈ rules, Reports [r] (r.toDefinition.map fun d => d.body.targets)) (start : Option Text) :
    refusal? (Node.toDefinitionsAfter [] rules >>= fun ds => Grammar.ofBuild (Definition.assemble ds) start) =
      refusalOf rules start := by
  have hread : refusal? (Node.toDefinitionsAfter [] rules) = Node.firstWrong? rules :=
    @Node.refusal?_toDefinitionsAfter _ rules [] [] (fun _ => by simp)
      fun r hr => (reports_singleton.1 (hrules r hr)).1.trans (refusal?_map _ _)
  rw [refusalOf, ← hread]
  rcases hds : Node.toDefinitionsAfter [] rules with err | ds
  · rfl
  have hall := Node.forall₂_toDefinition hds
  obtain ⟨hlabels, htargets⟩ := labels_targets_of_forall₂ hrules hall
  have hne' : ds ≠ [] := by
    rintro rfl
    cases hall
    exact hne rfl
  rw [← hlabels, ← htargets]
  exact refusal?_ofBuild hne' start

namespace Grammar

/-- Why a text is refused.  If a definition text is matched as a whole, compiling it comes to one
outcome at every depth that is enough, and at any other depth it nests too deep.  The outcome
is a refusal for what `refusalOf` says of the rules of the tree, or a grammar with these
rules if it says nothing. -/
theorem compile_refusal [Platform] [Platform.ReadsTokens] {depth' : Nat} {s : Text}
    {reader : Grammar} {tree : Node} (hreader : definitions = .ok reader)
    (htree : reader.parseTo depth' s (some "rules".toText) 0 = .ok (some tree))
    (hwhole : tree.stop = s.length) (start : Option Text) :
    ∃ outcome : Except Error Grammar,
      refusal? outcome = refusalOf (tree.nodesNamed "rule".toText) start ∧
      (∀ g, outcome = .ok g → g.table.names = (tree.nodesNamed "rule".toText).map Node.ruleLabel) ∧
      (∃ enough, ∀ depth, enough ≤ depth → compileTo depth s start = outcome) ∧
      ∀ depth, compileTo depth s start = outcome ∨ compileTo depth s start = .error .tooDeep := by
  obtain ⟨_, hreader', hs⟩ := definitions_speaks
  obtain rfl := Except.ok.inj (hreader'.symm.trans hreader)
  obtain ⟨r, rest, hread, rfl⟩ := hs.exists_read_of_parseTo htree
  obtain rfl := (stop_eq_length hread).1 hwhole
  have hmatch := (SpeaksAs.parseTo_eq hs.2.1 depth' s 0).symm.trans htree
  have hnodes := nodesNamed_rule_rules hs.1 (Store.matchAt_tiles hmatch)
  rw [show Part.rule.name = "rule".toText from rfl] at hnodes
  have hdrop : s.drop (Layout.text r.before).length = r.rules.flatMap RuleSpelling.text ++ [] := by
    rw [readRules_text hread, RulesSpelling.text, List.append_nil, List.drop_left, List.append_nil]
  have hread' : Node.toDefinitionsAfter [] (nodesFrom (RuleSpelling.node s definitionIds) _ _ _) = _ :=
    toDefinitionsAfter_nodes r.rules [] hdrop
  have hreports := reports_rules definitionIds hdrop
  obtain ⟨henough, hotherwise⟩ := compileTo_of_read hread
  rw [hnodes]
  refine ⟨_, ?_, fun g hg => ?_, ⟨19 + 13 * nesting s 0, fun depth hle => henough depth (by omega) start⟩,
    fun depth => (hotherwise depth).imp (fun h => h start) fun h => h start⟩
  · rw [RulesSpelling.definitions, ← hread']
    exact refusal?_of_reports (List.cons_ne_nil _ _) hreports start
  · have hcompile := (henough (19 + 13 * nesting s 0) (by omega) start).trans hg
    obtain ⟨r', ds, name, hread'', hds, -, -, rfl⟩ := compileTo_eq_ok hcompile
    obtain rfl : r = r' := congrArg Prod.fst (Option.some.inj (hread.symm.trans hread''))
    have hall := Node.forall₂_toDefinition (hread'.trans hds)
    exact (Definition.names_grammar ds name).trans (labels_targets_of_forall₂ hreports hall).1

/-- A rule with a literal that spells no text and a pattern that is rejected, before one that
comes twice. -/
def misspelledSource : Text := "a = b\nc = d \"\\x\" ~\"(\"\na = b".toText

attribute [local instance] Platform.builtIn

theorem compile_refusal_misspelledSource :
    (∃ enough, ∀ depth, enough ≤ depth →
      compileTo depth misspelledSource none = .error (.badLiteral "\"\\x\"".toText 12)) ∧
    ∀ depth, compileTo depth misspelledSource none = .error (.badLiteral "\"\\x\"".toText 12) ∨
      compileTo depth misspelledSource none = .error .tooDeep := by
  obtain ⟨reader, hreader, hs⟩ := definitions_speaks
  obtain ⟨x, hx, hstop, hrefusal⟩ : ∃ x ∈ readRules true misspelledSource,
      (x.1.node misspelledSource definitionIds).stop = misspelledSource.length ∧
      refusalOf ((x.1.node misspelledSource definitionIds).nodesNamed "rule".toText) none =
        some (.badLiteral "\"\\x\"".toText 12) := by decide +kernel
  have htree := hs.parse_rules_of_nesting (t := misspelledSource) (by decide +kernel)
  rw [hx] at htree
  obtain ⟨outcome, houtcome, -, hcompile⟩ := compile_refusal hreader htree hstop none
  rw [hrefusal] at houtcome
  cases outcome with
  | error err =>
    obtain rfl := Option.some.inj houtcome
    exact hcompile
  | ok g => cases houtcome

end Grammar

end Pegboard
