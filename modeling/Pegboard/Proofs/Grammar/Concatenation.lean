import Pegboard.Proofs.Grammar.Layout
import Pegboard.Regex.Engine

/-!
# Definition texts one after the other

Two definition texts with a line break between them make one definition text, whatever the
first one ends with and the second one starts with (`readsAs_append`).  It stands for the
definitions of the two, one after the other.  If no label comes twice, it is compiled to a
grammar that both of the grammars are part of (`compile_append`).
-/

namespace Pegboard

namespace Syntax

/-! ## The last token -/

theorem RuleSpelling.exists_last_piece (r : RuleSpelling) :
    ∃ before p, r.pieces = before ++ [p] ∧ p.token.isMark = false := by
  obtain ⟨before, p, hbody, hmark⟩ := Syntax.exists_last_piece r.body
  exact ⟨_ :: _ :: before, p, by rw [pieces, hbody]; rfl, hmark⟩

theorem RulesSpelling.exists_last_piece (r : RulesSpelling) :
    ∃ before p, r.pieces = before ++ [p] ∧ p.token.isMark = false := by
  obtain ⟨front, last, hrules⟩ : ∃ front last, r.rules = front ++ [last] :=
    ⟨_, _, (List.dropLast_append_getLast (List.cons_ne_nil r.first r.rest)).symm⟩
  obtain ⟨before, p, hlast, hmark⟩ := last.exists_last_piece
  refine ⟨front.flatMap RuleSpelling.pieces ++ before, p, ?_, hmark⟩
  rw [pieces, hrules, List.flatMap_append, List.flatMap_singleton, hlast, List.append_assoc]

/-! ## Reading both texts as one -/

/-- Two definition texts are read as one, with the rules of the first one in front. -/
theorem readsAs_append [Platform] {s₁ s₂ : Text} {r₁ r₂ : RulesSpelling}
    (h₁ : readRules true s₁ = some (r₁, [])) (h₂ : readRules true s₂ = some (r₂, [])) :
    ReadsAs (s₁ ++ .char '\n' :: s₂) (r₁.rules ++ r₂.rules) := by
  obtain ⟨before, p, hpieces, hmark⟩ := r₁.exists_last_piece
  have hcuts := (takes_rules h₁).1
  rw [hpieces] at hcuts
  have hspells := RulesSpelling.spells_pieces h₂
  have hne : Layout.text (p.after ++ lineBreak ++ r₂.before) ≠ [] := by
    rw [Layout.text_append, Layout.text_append, text_lineBreak]
    simp
  obtain ⟨c, hx, hc⟩ := Layout.starts hne
  have htext : s₁ ++ .char '\n' :: s₂ = Layout.text r₁.before ++ (textOf before ++
      (p.token.text ++ (Layout.text (p.after ++ lineBreak ++ r₂.before) ++ textOf r₂.pieces))) := by
    rw [readRules_text h₁, readRules_text h₂, r₁.textOf_pieces, r₂.textOf_pieces, hpieces, Layout.text_append,
      Layout.text_append, text_lineBreak]
    simp
  have hpasses : Passes (Layout.text (p.after ++ lineBreak ++ r₂.before)) := by
    rw [Layout.text_append, RulesSpelling.before_eq h₂]
    refine (passes_of_lineBreak p.after).append (passes_of_rest ?_)
    rw [(takes_rules h₂).1.text_eq, List.append_nil]
    exact r₂.textOf_pieces_ne_nil
  rw [htext, RulesSpelling.before_eq h₁]
  refine readsAs_relaid hcuts hmark hx hc ?_ hspells ?_
  · rw [hpasses, readLayout_of_none hspells.readBlank]
  · rw [← hpieces, r₁.map_lexeme_pieces, ← List.flatMap_append]
    rfl

end Syntax

namespace Definition

theorem Complete.append {ds₁ ds₂ : List Definition} (h₁ : Complete ds₁) (h₂ : Complete ds₂) :
    Complete (ds₁ ++ ds₂) := by
  intro t ht
  rw [targets, List.flatMap_append, List.mem_append] at ht
  rw [List.map_append, List.mem_append]
  exact ht.imp (h₁ t) (h₂ t)

end Definition

namespace Grammar

open Syntax

/-- What a text is compiled to without a rule to start with. -/
theorem compileTo_none_eq_ok [Platform] [Platform.ReadsTokens] {depth : Nat} {s : Text}
    {g : Grammar} (h : compileTo depth s none = .ok g) :
    ∃ r ds, ∃ hne : ds ≠ [], readRules true s = some (r, []) ∧ r.definitions = .ok ds ∧
      Definition.Complete ds ∧ g = Definition.grammar ds (ds.head hne).label := by
  obtain ⟨r, ds, hread, hds, hbuild⟩ := exists_ofBuild_of_compileTo h
  have hcomplete := Definition.complete_of_ofBuild hbuild
  have hne := definitions_ne_nil hds
  rw [Definition.ofBuild_complete hcomplete hne] at hbuild
  exact ⟨r, ds, hne, hread, hds, hcomplete, (Except.ok.inj hbuild).symm⟩

/-- Two definition texts that are compiled, without a rule name in common, are compiled as one
text with a line break between them.  The rules are those of the first grammar and then those
of the second one, and the rule to start with is that of the first one.  Both grammars are
part of the new one.  So each of their rules matches as before, in every text and at every
offset of it. -/
theorem compile_append [Platform] [Platform.ReadsTokens] {depth₁ depth₂ : Nat} {s₁ s₂ : Text}
    {g₁ g₂ : Grammar} (h₁ : compileTo depth₁ s₁ none = .ok g₁)
    (h₂ : compileTo depth₂ s₂ none = .ok g₂)
    (hdisjoint : List.Disjoint g₁.table.names g₂.table.names) :
    ∃ g, Reaches (fun depth => compileTo depth (s₁ ++ .char '\n' :: s₂) none) g ∧
      g.table.names = g₁.table.names ++ g₂.table.names ∧ g.table.start = g₁.table.start ∧
      ∀ part ∈ [g₁, g₂], part.Embeds g ∧ ∀ name ∈ part.table.names, ∀ depth text pos,
        Store.Agree (part.parseTo depth text (some name) pos)
          (g.parseTo depth text (some name) pos) := by
  obtain ⟨r₁, ds₁, hne₁, hread₁, hds₁, hcomplete₁, rfl⟩ := compileTo_none_eq_ok h₁
  obtain ⟨r₂, ds₂, hne₂, hread₂, hds₂, hcomplete₂, rfl⟩ := compileTo_none_eq_ok h₂
  rw [Definition.names_grammar, Definition.names_grammar] at hdisjoint ⊢
  obtain ⟨hmeaning₁, hlabels₁⟩ := RulesSpelling.definitions_eq_ok.1 hds₁
  obtain ⟨hmeaning₂, hlabels₂⟩ := RulesSpelling.definitions_eq_ok.1 hds₂
  have hmeaning : (r₁.rules ++ r₂.rules).map RuleSpelling.meaning? = (ds₁ ++ ds₂).map some := by
    rw [List.map_append, hmeaning₁, hmeaning₂, List.map_append]
  have hlabels : ((ds₁ ++ ds₂).map Definition.label).Nodup := by
    rw [List.map_append]
    exact hlabels₁.append hlabels₂ hdisjoint
  have hne : ds₁ ++ ds₂ ≠ [] := List.append_ne_nil_of_left_ne_nil hne₁ ds₂
  have hbuild := Definition.ofBuild_complete (hcomplete₁.append hcomplete₂) hne none
  refine ⟨_, (readsAs_append hread₁ hread₂).reaches hmeaning hlabels hbuild, ?_, ?_, ?_⟩
  · rw [Definition.names_grammar, List.map_append]
  · rw [List.head_append_of_ne_nil hne₁]
    rfl
  · have hpart : ∀ {part g : Grammar}, part.Embeds g → part.Embeds g ∧
        ∀ name ∈ part.table.names, ∀ depth text pos, Store.Agree
          (part.parseTo depth text (some name) pos) (g.parseTo depth text (some name) pos) :=
      fun h => ⟨h, fun _ hname => h.agree hname⟩
    rw [List.forall_mem_cons, List.forall_mem_singleton]
    exact ⟨hpart (Definition.embeds_grammar hcomplete₁ hlabels₁ hlabels
        (fun _ => List.mem_append_left ds₂) _ _),
      hpart (Definition.embeds_grammar hcomplete₂ hlabels₂ hlabels
        (fun _ => List.mem_append_right ds₁) _ _)⟩

attribute [local instance] Platform.builtIn

/-- A text that ends with a comment and one that starts with a blank. -/
theorem compile_append_commented : ∃ g₁ g₂ g,
    compile "a = b?\nb = \"x\" # last".toText none = .ok g₁ ∧
    compile " c = !d\nd = \"y\"+".toText none = .ok g₂ ∧
    Reaches (fun depth =>
      compileTo depth "a = b?\nb = \"x\" # last\n c = !d\nd = \"y\"+".toText none) g ∧
    g.table.names = [[.char 'a'], [.char 'b'], [.char 'c'], [.char 'd']] ∧
      g.table.start = [.char 'a'] ∧ g₁.Embeds g ∧ g₂.Embeds g := by
  obtain ⟨g₁, h₁, hnames₁, hstart₁⟩ : ∃ g₁, compile "a = b?\nb = \"x\" # last".toText none = .ok g₁ ∧
      g₁.table.names = [[.char 'a'], [.char 'b']] ∧ g₁.table.start = [.char 'a'] :=
    compile_of_graph (by decide +kernel) (by decide +kernel)
  obtain ⟨g₂, h₂, hnames₂, -⟩ : ∃ g₂, compile " c = !d\nd = \"y\"+".toText none = .ok g₂ ∧
      g₂.table.names = [[.char 'c'], [.char 'd']] ∧ g₂.table.start = [.char 'c'] :=
    compile_of_graph (by decide +kernel) (by decide +kernel)
  obtain ⟨g, hg, hnames, hstart, hparts⟩ := compile_append (compileTo_of_compile h₁)
    (compileTo_of_compile h₂) (by rw [hnames₁, hnames₂]; simp)
  rw [hnames₁, hnames₂] at hnames
  exact ⟨g₁, g₂, g, h₁, h₂, hg, hnames, hstart.trans hstart₁,
    (hparts g₁ (by simp)).1, (hparts g₂ (by simp)).1⟩

end Grammar

end Pegboard
