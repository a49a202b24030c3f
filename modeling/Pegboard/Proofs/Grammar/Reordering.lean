import Mathlib.Algebra.Order.Group.Nat
import Mathlib.Data.List.Perm.Basic
import Pegboard.Proofs.Grammar.Layout
import Pegboard.Proofs.Syntax.Lines
import Pegboard.Regex.Engine

/-!
# The order of rules does not matter

The rules of a definition text can be written one a line in any order.  Such a text is read as
the same rules in that order (`readsAs_lines`), so it stands for the same definitions in that
order.  References are replaced when all rules are there, so whether a rule comes before or
after one that refers to it is all the same: the two grammars are isomorphic
(`compile_reordered`).
-/

namespace Pegboard

namespace Syntax

/-- A node and a name are those of a rule and of the definition that it stands for. -/
structure Denotes [Platform] (x : Node × Text) (y : RuleSpelling × Definition) : Prop where
  text_eq : x.1.text = y.1.text
  name_eq : x.2 = y.2.label
  meaning : y.1.meaning? = some y.2

theorem denotes_zip [Platform] : ∀ {nodes : List Node} {rs : List RuleSpelling}
    {ds : List Definition},
    nodes.map Node.text = rs.map RuleSpelling.text → rs.map RuleSpelling.meaning? = ds.map some →
    List.Forall₂ Denotes (nodes.zip (ds.map Definition.label)) (rs.zip ds)
  | [], [], [], _, _ => .nil
  | n :: nodes, r :: rs, d :: ds, htexts, hmeaning => by
    obtain ⟨htext, htexts⟩ := List.cons.inj htexts
    obtain ⟨hd, hmeaning⟩ := List.cons.inj hmeaning
    exact .cons ⟨htext, rfl, hd⟩ (denotes_zip htexts hmeaning)

theorem map_eq_of_denotes [Platform] {xs : List (Node × Text)}
    {ys : List (RuleSpelling × Definition)} (h : List.Forall₂ Denotes xs ys) :
    xs.map (fun x => x.1.text) = (ys.map Prod.fst).map RuleSpelling.text ∧
      xs.map Prod.snd = (ys.map Prod.snd).map Definition.label ∧
      (ys.map Prod.fst).map RuleSpelling.meaning? = (ys.map Prod.snd).map some := by
  induction h with
  | nil => exact ⟨rfl, rfl, rfl⟩
  | cons hxy _ ih => simp [hxy.text_eq, hxy.name_eq, hxy.meaning, ih]

/-- Nodes and names in another order go with rules and definitions in that order. -/
theorem exists_reordered [Platform] {nodes : List Node} {rs : List RuleSpelling}
    {ds : List Definition} (htexts : nodes.map Node.text = rs.map RuleSpelling.text)
    (hmeaning : rs.map RuleSpelling.meaning? = ds.map some) {order : List (Node × Text)}
    (horder : order.Perm (nodes.zip (ds.map Definition.label))) :
    ∃ (rs' : List RuleSpelling) (ds' : List Definition),
      (order.map (fun x => x.1.text) = rs'.map RuleSpelling.text ∧
        order.map Prod.snd = ds'.map Definition.label ∧
        rs'.map RuleSpelling.meaning? = ds'.map some) ∧ rs'.Perm rs ∧ ds'.Perm ds := by
  have hlength : rs.length = ds.length := by simpa using congrArg List.length hmeaning
  obtain ⟨pairs, hall, hperm⟩ := List.perm_comp_forall₂ horder (denotes_zip htexts hmeaning)
  have hrules := hperm.map Prod.fst
  have hdefinitions := hperm.map Prod.snd
  rw [List.map_fst_zip hlength.le] at hrules
  rw [List.map_snd_zip hlength.ge] at hdefinitions
  exact ⟨_, _, map_eq_of_denotes hall, hrules, hdefinitions⟩

end Syntax

namespace Definition

/-- Definitions in another order are complete if they were. -/
theorem Complete.perm {ds ds' : List Definition} (h : Complete ds) (hperm : ds'.Perm ds) : Complete ds' := by
  intro t ht
  have hmem : t ∈ targets ds := (hperm.flatMap_right fun d => d.body.targets).mem_iff.1 ht
  exact (hperm.map label).mem_iff.2 (h t hmem)

end Definition

namespace Grammar

open Syntax

/-- The order of rules does not matter.  In the tree of a text that is compiled there is a node
for each of its rules.  If their texts are written one a line in any order, the new text is
compiled, too.  The rules of the new grammar are in that order, and the two grammars are
isomorphic.  So each rule matches as before, in every text and at every offset of it. -/
theorem compile_reordered [Platform] [Platform.ReadsTokens] {depth depth' : Nat} {s : Text}
    {start : Option Text} {g reader : Grammar} {tree : Node} (h : compileTo depth s start = .ok g)
    (hreader : definitions = .ok reader)
    (htree : reader.parseTo depth' s (some "rules".toText) 0 = .ok (some tree)) :
    (tree.nodesNamed "rule".toText).length = g.table.names.length ∧
    ∀ order : List (Node × Text),
      order.Perm ((tree.nodesNamed "rule".toText).zip g.table.names) →
      ∃ g', Reaches (fun depth =>
          compileTo depth (Text.join ['\n'] (order.map fun x => x.1.text)) none) g' ∧
        g'.table.names = order.map Prod.snd ∧ g.Isomorphic g' ∧
        ∀ name ∈ g.table.names, ∀ depth text pos, Store.Agree
          (g.parseTo depth text (some name) pos) (g'.parseTo depth text (some name) pos) := by
  obtain ⟨_, hreader', hs⟩ := definitions_speaks
  obtain rfl := Except.ok.inj (hreader'.symm.trans hreader)
  obtain ⟨r, ds, start, hread, hds, hcomplete, -, rfl⟩ := compileTo_eq_ok h
  obtain ⟨hmeaning, hlabels⟩ := RulesSpelling.definitions_eq_ok.1 hds
  obtain rfl : r.node s definitionIds = tree := by
    rcases hs.parseTo_rules depth' s with hparse | hparse
    · rw [hparse, hread] at htree
      exact Option.some.inj (Except.ok.inj htree)
    · rw [hparse] at htree
      cases htree
  have hmatch := (SpeaksAs.parseTo_eq hs.2.1 depth' s 0).symm.trans htree
  have hnodes := nodesNamed_rule_rules hs.1 (Store.matchAt_tiles hmatch)
  have hdrop : s.drop (Layout.text r.before).length = r.rules.flatMap RuleSpelling.text := by
    rw [readRules_text hread, RulesSpelling.text, List.append_nil, List.drop_left]
  have htexts := map_text_ruleNodes definitionIds hdrop
  rw [← hnodes, show Part.rule.name = "rule".toText from rfl] at htexts
  rw [Definition.names_grammar]
  refine ⟨?_, fun order horder => ?_⟩
  · simpa using (congrArg List.length htexts).trans (by simpa using congrArg List.length hmeaning)
  obtain ⟨rs', ds', ⟨htexts', hnames, hmeaning'⟩, hrules, hperm⟩ := exists_reordered htexts hmeaning horder
  have hlabels' : (ds'.map Definition.label).Nodup := (hperm.map Definition.label).nodup_iff.2 hlabels
  have hne : ds' ≠ [] := fun hnil => definitions_ne_nil hds (hnil ▸ hperm).symm.eq_nil
  have hne' : rs' ≠ [] := fun hnil => List.cons_ne_nil _ _ (hnil ▸ hrules).symm.eq_nil
  have hreads := readsAs_lines hne' fun rule hrule => RulesSpelling.isCut hread rule (hrules.mem_iff.1 hrule)
  have hbuild := Definition.ofBuild_complete (hcomplete.perm hperm) hne none
  rw [htexts']
  refine ⟨_, hreads.reaches hmeaning' hlabels' hbuild, ?_, ?_, fun name hname => ?_⟩
  · rw [Definition.names_grammar, hnames]
  · exact Definition.isomorphic_grammar hcomplete hlabels hlabels' (fun d => hperm.mem_iff.symm) _ _
  · refine (Definition.embeds_grammar hcomplete hlabels hlabels' (fun d => hperm.mem_iff.2) _ _).agree ?_
    rwa [Definition.names_grammar]

attribute [local instance] Platform.builtIn

/-- Two rules that refer to each other change places. -/
theorem compile_reordered_groupedSource : ∃ g g', compile groupedSource (some ['b']) = .ok g ∧
    Reaches (fun depth =>
      compileTo depth "b = (\"y\" a)+ !~\"z\"i\na = b / \"x\"\n".toText none) g' ∧
    g'.table.names = [[.char 'b'], [.char 'a']] ∧ g.Isomorphic g' := by
  obtain ⟨g, hg, ⟨-, hnames⟩, -⟩ := compile_groupedSource
  obtain ⟨reader, hreader, hs⟩ := definitions_speaks
  obtain ⟨x, hx, htexts⟩ : ∃ x ∈ readRules true groupedSource,
      ((x.1.node groupedSource definitionIds).nodesNamed "rule".toText).map Node.text =
        ["a = b / \"x\"\n".toText, "b = (\"y\" a)+ !~\"z\"i".toText] := by decide +kernel
  have htree := hs.parse_rules_of_nesting (t := groupedSource) (by decide +kernel)
  rw [hx] at htree
  obtain ⟨-, hreordered⟩ := compile_reordered (compileTo_of_compile hg) hreader htree
  obtain ⟨n₁, rest, hnodes, htext₁, hrest⟩ := List.map_eq_cons_iff.1 htexts
  obtain ⟨n₂, rfl, htext₂⟩ := List.map_eq_singleton_iff.1 hrest
  rw [hnodes, hnames] at hreordered
  obtain ⟨g', hg', hnames', hisomorphic, -⟩ :=
    hreordered [(n₂, ['b']), (n₁, ['a'])] (List.Perm.swap _ _ [])
  refine ⟨g, g', hg, ?_, hnames', hisomorphic⟩
  rw [List.map_cons, List.map_singleton, htext₁, htext₂] at hg'
  exact hg'

end Grammar

end Pegboard
