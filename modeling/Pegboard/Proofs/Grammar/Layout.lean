import Pegboard.Proofs.Grammar.RoundTrip
import Pegboard.Proofs.Syntax.Gaps
import Pegboard.Proofs.Syntax.Language
import Pegboard.Proofs.Syntax.Relayout
import Pegboard.Regex.Engine

/-!
# Layout does not matter

A definition text can have other layout in each of the places where its tree has a node of
layout.  The text is read as rules that stand for the same definitions (`readsAs_replaced`),
so it is compiled to the same grammar (`compile_replaced`).
-/

namespace Pegboard

/-- A tree of layout ends with a comment. -/
def Node.EndsInComment (n : Node) : Prop :=
  ∃ piece ∈ n.children.getLast?, ∃ child ∈ piece.children, child.name = "comment".toText

instance (n : Node) : Decidable n.EndsInComment :=
  inferInstanceAs (Decidable (∃ piece ∈ n.children.getLast?, ∃ child ∈ piece.children, _))

namespace Syntax

/-! ## The end of layout -/

theorem getLast?_nodesFrom {α : Type} (node : α → Nat → Node) (text : α → Text) {a : α} :
    ∀ {as : List α} (n : Nat), as.getLast? = some a → ∃ k, (nodesFrom node text n as).getLast? = some (node a k)
  | [], _, h => by cases h
  | [a'], n, h => by
    obtain rfl : a' = a := Option.some.inj h
    exact ⟨n, rfl⟩
  | a' :: b :: rest, n, h => by
    rw [List.getLast?_cons_cons] at h
    obtain ⟨k, hk⟩ := getLast?_nodesFrom node text (n + (text a').length) h
    exact ⟨k, by rw [nodesFrom, nodesFrom, List.getLast?_cons_cons, ← nodesFrom, hk]⟩

/-- The tree of layout ends with a comment if the layout does. -/
theorem endsInComment_layoutNode (whole : Text) (ids : Part → ExprId) {layout : Layout} (n : Nat)
    {run : Text} {ok : ∀ c ∈ run, unbroken.holds c = true}
    (h : layout.getLast? = some (.comment run ok)) : (layoutNode whole ids layout n).EndsInComment := by
  obtain ⟨k, hk⟩ := getLast?_nodesFrom (blankNode whole ids) Blank.text n h
  exact ⟨_, hk, _, List.mem_singleton_self _, rfl⟩

/-! ## Other layout in a definition text -/

section Replace

variable {s w : Text} {r : RulesSpelling}

/-- The text behind the layout at the start spells the rules that are read there. -/
theorem RulesSpelling.spells_pieces (h : readRules true s = some (r, [])) :
    Spells (textOf r.pieces) (r.rules.flatMap RuleSpelling.lexemes) := by
  have hcuts := (takes_rules h).1
  have hspells := hcuts.spells .nil
  rwa [List.append_nil, r.map_lexeme_pieces, hcuts.text_eq, List.append_nil] at hspells

theorem RulesSpelling.textOf_pieces_ne_nil (r : RulesSpelling) : textOf r.pieces ≠ [] :=
  textOf_ne_nil (List.cons_ne_nil _ _)

/-- Other layout at the start of a definition text. -/
theorem readsAs_newStart [Platform] (h : readRules true s = some (r, [])) (hw : Passes w) :
    ReadsAs (w ++ textOf r.pieces) r.rules := readsAs_behind hw (RulesSpelling.spells_pieces h)

/-- Other layout after a token that is not a mark, alone or behind the layout that is there. -/
theorem readsAs_newGap [Platform] (h : readRules true s = some (r, [])) {before after : List Piece}
    {p : Piece} (hpieces : r.pieces = before ++ p :: after) (hmark : p.token.isMark = false)
    {kept : Layout} (hkept : kept = [] ∨ kept = p.after) (hw : (readLayout w).2 = []) (hne : w ≠ [])
    (hpasses : after ≠ [] → Passes w) :
    ReadsAs (Layout.text r.before ++
      (textOf before ++ (p.token.text ++ ((Layout.text kept ++ w) ++ textOf after)))) r.rules := by
  have hcuts := (takes_rules h).1
  rw [hpieces] at hcuts
  have hsplit := hcuts.split.2
  have hlayout : Layout.text kept ++ w = Layout.text (kept ++ (readLayout w).1) := by
    have htext := readLayout_text w
    rw [hw, List.append_nil] at htext
    rw [Layout.text_append, ← htext]
  have hstarts : Layout.text (kept ++ (readLayout w).1) ≠ [] := by
    rw [← hlayout]
    exact List.append_ne_nil_of_right_ne_nil _ hne
  obtain ⟨c, hx, hc⟩ := Layout.starts hstarts
  cases hsplit with
  | @cons _ s' _ _ _ token more =>
    have hspells := more.spells .nil
    have hafter : (readLayout s').2 = textOf after := by rw [more.text_eq, List.append_nil]
    rw [List.append_nil, hafter] at hspells
    rw [RulesSpelling.before_eq h]
    refine readsAs_relaid hcuts hmark (by rw [hlayout, hx]) hc ?_ hspells ?_
    · rcases eq_or_ne after [] with rfl | hmore
      · rw [textOf_nil, List.append_nil, hlayout, readLayout_layoutText]
      · have hkept : Passes (Layout.text kept) := by
          rcases hkept with rfl | rfl
          · exact .nil
          · exact passes_of_rest (hafter ▸ textOf_ne_nil hmore)
        rw [hkept.append (hpasses hmore), readLayout_of_none hspells.readBlank]
    · rw [← List.map_append, List.append_assoc, List.singleton_append, ← hpieces]
      exact r.map_lexeme_pieces

/-- Other layout in one of the places where the tree of a definition text has layout. -/
theorem readsAs_replaced [Platform] (h : readRules true s = some (r, [])) {whole : Text}
    {ids : Part → ExprId} {n : Node} (hn : n ∈ (r.node whole ids).nodes)
    (hname : n.name = Part.layout.name) (hw : (readLayout w).2 = [])
    (hne : n.start < n.stop → w ≠ [])
    (hlast : ∀ run ok, (readLayout w).1.getLast? = some (.comment run ok) → n.stop = s.length) :
    ReadsAs (s.take n.start.toNat ++ w ++ s.drop n.stop.toNat) r.rules := by
  have hpasses : n.stop ≠ s.length → Passes w := fun hstop =>
    passes_of_closed hw fun run ok hcomment => hstop (hlast run ok hcomment)
  have hs := readRules_text h
  rw [List.append_nil, r.textOf_pieces] at hs
  subst hs
  rcases r.layout_of_mem whole ids hn hname with rfl | hgap
  · -- the layout before the rules
    have hspan : (layoutNode whole ids r.before 0).stop.toNat = (Layout.text r.before).length := by
      simp [layoutNode, nodeAt]
    rw [hspan, List.drop_left]
    refine readsAs_newStart h (hpasses fun hstop => r.textOf_pieces_ne_nil ?_)
    have hlength := congrArg Int.toNat hstop
    rw [hspan, Int.toNat_natCast, List.length_append] at hlength
    exact List.length_eq_zero_iff.1 (by omega)
  · obtain ⟨before, p, after, kept, hpieces, hmark, hkept, hle, htake, hdrop⟩ := hgap.texts
    rcases eq_or_ne w [] with rfl | hw'
    · -- nothing is put in where there is nothing
      have hspan : n.start = n.stop := by
        have hempty : ¬ n.start < n.stop := fun hlt => hne hlt rfl
        omega
      rw [hspan, List.append_nil, List.take_append_drop]
      exact ⟨r, h, rfl⟩
    · have hend : after ≠ [] → Passes w := by
        refine fun hafter => hpasses fun hstop => textOf_ne_nil hafter ?_
        rw [← hdrop, hstop, Int.toNat_natCast, List.drop_length]
      have hreads := readsAs_newGap h hpieces hmark hkept hw hw' hend
      rw [htake, hdrop]
      simpa only [List.append_assoc] using hreads

end Replace

/-- A text is compiled to the grammar of the definitions that it is read as. -/
theorem ReadsAs.reaches [Platform] [Platform.ReadsTokens] {s : Text} {rs : List RuleSpelling}
    {ds : List Definition} {start : Option Text} {g : Grammar} (h : ReadsAs s rs)
    (hmeaning : rs.map RuleSpelling.meaning? = ds.map some)
    (hlabels : (ds.map Definition.label).Nodup)
    (hbuild : Grammar.ofBuild (Definition.assemble ds) start = .ok g) :
    Reaches (fun depth => Grammar.compileTo depth s start) g := by
  obtain ⟨r, hread, hrules⟩ := h
  have hds := RulesSpelling.definitions_eq_ok.2 ⟨hrules.trans hmeaning, hlabels⟩
  exact Grammar.reaches_compileTo hread hds hbuild

end Syntax

namespace Grammar

open Syntax

/-- Layout does not matter.  In a text that is compiled, what a node of layout takes up can be
replaced by any text that is matched as layout to its end.  That text may only be empty where
there was no layout, and it may only end with a comment where the definition text ends.  The
new text is compiled to the same grammar, with the same rules in the same order, so everything
is matched as before. -/
theorem compile_replaced [Platform] [Platform.ReadsTokens] {depth depth' depth'' : Nat} {s w : Text}
    {start : Option Text} {g reader : Grammar} {tree n layout : Node}
    (h : compileTo depth s start = .ok g) (hreader : definitions = .ok reader)
    (htree : reader.parseTo depth' s (some "rules".toText) 0 = .ok (some tree))
    (hn : n ∈ tree.nodes) (hname : n.name = "_".toText)
    (hw : reader.parseTo depth'' w (some "_".toText) 0 = .ok (some layout))
    (hwhole : layout.stop = w.length) (hne : n.start < n.stop → w ≠ [])
    (hlast : layout.EndsInComment → n.stop = s.length) :
    Reaches (fun depth => compileTo depth (s.take n.start.toNat ++ w ++ s.drop n.stop.toNat) start) g := by
  obtain ⟨_, hreader', hs⟩ := definitions_speaks
  obtain rfl := Except.ok.inj (hreader'.symm.trans hreader)
  obtain ⟨r, ds, hread, hds, hbuild⟩ := exists_ofBuild_of_compileTo h
  obtain rfl : r.node s definitionIds = tree := by
    rcases hs.parseTo_rules depth' s with hparse | hparse
    · rw [hparse, hread] at htree
      exact Option.some.inj (Except.ok.inj htree)
    · rw [hparse] at htree
      cases htree
  obtain rfl : layoutNode w definitionIds (readLayout w).1 0 = layout := by
    rcases hs.parseTo_layout depth'' w with hparse | hparse
    · rw [hparse] at hw
      exact Option.some.inj (Except.ok.inj hw)
    · rw [hparse] at hw
      cases hw
  have hrest : (readLayout w).2 = [] := by
    have hlength := congrArg List.length (readLayout_text w)
    rw [List.length_append] at hlength
    change ((0 + (Layout.text (readLayout w).1).length : Nat) : Int) = w.length at hwhole
    exact List.length_eq_zero_iff.1 (by omega)
  have hreads := readsAs_replaced hread hn hname hrest hne
    fun run ok hcomment => hlast (endsInComment_layoutNode w definitionIds 0 hcomment)
  obtain ⟨hmeaning, hlabels⟩ := RulesSpelling.definitions_eq_ok.1 hds
  exact hreads.reaches hmeaning hlabels hbuild

attribute [local instance] Platform.builtIn

/-- The break between two rules is replaced by a comment, a break of another kind and a tab. -/
theorem compile_replaced_groupedSource : ∃ g, compile groupedSource (some ['b']) = .ok g ∧
    Reaches (fun depth => compileTo depth
      "a = b / \"x\"# or else\r\n\tb = (\"y\" a)+ !~\"z\"i".toText (some ['b'])) g := by
  obtain ⟨g, hg, -⟩ := compile_groupedSource
  obtain ⟨reader, hreader, hs⟩ := definitions_speaks
  obtain ⟨x, hx, n, hn, hname, hstart, hstop⟩ : ∃ x ∈ readRules true groupedSource,
      ∃ n ∈ (x.1.node groupedSource definitionIds).nodes,
        n.name = "_".toText ∧ n.start = 11 ∧ n.stop = 12 := by decide +kernel
  have htree := hs.parse_rules_of_nesting (t := groupedSource) (by decide +kernel)
  rw [hx] at htree
  have hw : reader.parse "# or else\r\n\t".toText (some "_".toText) 0 = _ :=
    hs.parseTo_layout_of_nesting (by decide +kernel)
  have hcompile := compile_replaced (compileTo_of_compile hg) hreader htree hn hname hw
    (by decide +kernel) (fun _ => by decide)
    fun hcomment => absurd hcomment (by decide +kernel)
  rw [hstart, hstop] at hcompile
  exact ⟨g, hg, hcompile⟩

end Grammar

end Pegboard
