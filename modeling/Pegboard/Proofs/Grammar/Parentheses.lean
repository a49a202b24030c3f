import Pegboard.Proofs.Grammar.Layout
import Pegboard.Proofs.Syntax.Grouping

/-!
# Parentheses around what is one already

Parentheses only group, and they make no node of the graph.  So an expression, an alternative,
a term or an atom of a definition text can be put in parentheses where it stands, and the text
is compiled to the same grammar (`compile_grouped`).
-/

namespace Pegboard.Grammar

open Syntax

/-- Parentheses that are not needed do not matter.  In a text that is compiled, the text of a
node of an expression, an alternative, a term or an atom can be put in parentheses, with a line
break before the second one.  The new text is compiled to the same grammar, with the same rules
in the same order and the same graph. -/
theorem compile_grouped [Platform] [Platform.ReadsTokens] {depth depth' : Nat} {s : Text}
    {start : Option Text} {g reader : Grammar} {tree n : Node} (h : compileTo depth s start = .ok g)
    (hreader : definitions = .ok reader)
    (htree : reader.parseTo depth' s (some "rules".toText) 0 = .ok (some tree))
    (hn : n ∈ tree.nodes)
    (hname : n.name ∈ ["expression".toText, "alternative".toText, "term".toText, "atom".toText]) :
    Reaches (fun depth => compileTo depth
      (s.take n.start.toNat ++ .char '(' :: (n.text ++ "\n)".toText ++ s.drop n.stop.toNat)) start) g := by
  obtain ⟨_, hreader', hs⟩ := definitions_speaks
  obtain rfl := Except.ok.inj (hreader'.symm.trans hreader)
  obtain ⟨r, ds, hread, hds, hbuild⟩ := exists_ofBuild_of_compileTo h
  obtain ⟨r', rest, hread', rfl⟩ := hs.exists_read_of_parseTo htree
  obtain ⟨rfl, rfl⟩ := Prod.mk.inj (Option.some.inj (hread.symm.trans hread'))
  have hmatch := (SpeaksAs.parseTo_eq hs.2.1 depth' s 0).symm.trans htree
  have hreads := readsAs_grouped hread s definitionIds hn (decide_eq_true hname)
  rw [Node.text, (Store.matchAt_tiles hmatch n hn).text_eq, List.append_assoc]
  obtain ⟨hmeaning, hlabels⟩ := RulesSpelling.definitions_eq_ok.1 hds
  exact hreads.reaches hmeaning hlabels hbuild

/-- A rule that is another name of the next one, and a comment between the two. -/
def aliasSource : Text := "a = b # c\nb = !\"d\" a? / ~\"e\"".toText

attribute [local instance] Platform.builtIn

/-- The right-hand side of the first rule, with the comment behind it, is put in parentheses. -/
theorem compile_grouped_aliasSource : ∃ g, compile aliasSource none = .ok g ∧
    Reaches (fun depth => compileTo depth "a = (b # c\n\n)b = !\"d\" a? / ~\"e\"".toText none) g := by
  obtain ⟨g, hg, -⟩ : ∃ g, compile aliasSource none = .ok g ∧ g.table.names = [[.char 'a'], [.char 'b']] ∧
      g.table.start = [.char 'a'] :=
    compile_of_graph (by decide +kernel) (by decide +kernel)
  obtain ⟨reader, hreader, hs⟩ := definitions_speaks
  obtain ⟨x, hx, n, hn, hname, hstart, hstop, htext⟩ : ∃ x ∈ readRules true aliasSource,
      ∃ n ∈ (x.1.node aliasSource definitionIds).nodes, n.name = "expression".toText ∧ n.start = 4 ∧
        n.stop = 10 ∧ n.text = "b # c\n".toText := by decide +kernel
  have htree := hs.parse_rules_of_nesting (t := aliasSource) (by decide +kernel)
  rw [hx] at htree
  have hcompile := compile_grouped (compileTo_of_compile hg) hreader htree hn (hname ▸ List.mem_cons_self)
  rw [hstart, hstop, htext] at hcompile
  exact ⟨g, hg, hcompile⟩

end Pegboard.Grammar
