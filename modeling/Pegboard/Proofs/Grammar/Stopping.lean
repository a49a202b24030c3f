import Pegboard.Proofs.Grammar.Compile
import Pegboard.Proofs.Grammar.Extension
import Pegboard.Proofs.Match.Tiling
import Pegboard.Proofs.Syntax.Truncation
import Pegboard.Regex.Engine

/-!
# Where reading a definition text stops

A definition text that is not read to its end is refused with the offset where reading stopped.
There is no layout at this offset.  What comes before it is read as it was, as rules or as
layout only, when the rest is left out (`compile_stopped`).
-/

namespace Pegboard

/-! ## Trees of the start of a text -/

theorem Text.slice_take {text : Text} {p : Nat} {a b : Int} (ha : 0 ≤ a) (hb : 0 ≤ b) (hle : b ≤ p) :
    Text.slice (text.take p) a b = text.slice a b := by
  obtain ⟨a, rfl⟩ := Int.eq_ofNat_of_zero_le ha
  obtain ⟨b, rfl⟩ := Int.eq_ofNat_of_zero_le hb
  rw [slice_natCast, slice_natCast, List.take_take, Nat.min_eq_left (Int.ofNat_le.1 hle)]

namespace Node

mutual

/-- The tree as one of another text. -/
def inText (text : Text) : Node → Node
  | ⟨origin, kind, name, _, start, stop, children⟩ =>
    ⟨origin, kind, name, text, start, stop, inTextAll text children⟩

/-- The trees as ones of another text. -/
def inTextAll (text : Text) : List Node → List Node
  | [] => []
  | n :: rest => n.inText text :: inTextAll text rest

end

theorem inTextAll_eq_map (text : Text) (nodes : List Node) : inTextAll text nodes = nodes.map (inText text) := by
  induction nodes with
  | nil => simp [inTextAll]
  | cons n rest ih => simp [inTextAll, ih]

theorem sameAll_map {f : Node → Node} : ∀ {nodes : List Node}, (∀ n ∈ nodes, n.same (f n) = true) →
    sameAll nodes (nodes.map f) = true
  | [], _ => by simp [sameAll]
  | n :: rest, h => by
    obtain ⟨hn, hrest⟩ := List.forall_mem_cons.1 h
    simp [sameAll, hn, sameAll_map hrest]

/-- A tree of the start of a text is one of the whole text. -/
theorem same_inText {text : Text} {p : Nat} {n : Node}
    (h : ∀ m ∈ n.nodes, m.fullText = text.take p ∧ 0 ≤ m.start ∧ m.start ≤ m.stop ∧ m.stop ≤ p) :
    n.same (n.inText text) = true := by
  induction n using induct with
  | _ n ih =>
    have hchildren : ∀ c ∈ n.children, c.same (c.inText text) = true := fun c hc =>
      ih c hc fun m hm => h m (mem_nodes.2 (.inr ⟨c, hc, hm⟩))
    obtain ⟨hfull, hstart, hle, hstop⟩ := h n (mem_nodes.2 (.inl rfl))
    have hslice : Text.slice (text.take p) n.start n.stop = text.slice n.start n.stop :=
      Text.slice_take hstart (Int.le_trans hstart hle) hstop
    rw [← hfull] at hslice
    cases n with
    | mk origin kind name full start stop children =>
      simp only [inText, inTextAll_eq_map, same, sameAll_map hchildren, Bool.and_true, Bool.and_eq_true,
        beq_iff_eq, and_true]
      exact hslice

end Node

namespace Syntax

open Store

theorem recasts_inText (whole whole' : Text) (ids : Part → ExprId) :
    Recasts (Node.inText whole') whole whole' ids ids where
  nodeAt p n length children := by
    rw [nodeAt, Node.inText, Node.inTextAll_eq_map]
    rfl
  moreTerms start stop children := by rw [Node.inText, Node.inTextAll_eq_map]
  stop n := by
    cases n
    rw [Node.inText]

/-! ## What a grammar gives at every depth -/

namespace SpeaksAs

variable {full : Bool} {ids : Part → ExprId} {g : Grammar} (hs : SpeaksAs full ids g)
include hs

/-- What is derived for a part that is a rule is what matching the rule gives. -/
theorem reaches [Platform] [Platform.Bounded] {p : Part} (hp : p.isExtra = true → full = true)
    (hlookup : g.table.rules.lookup p.name = some (ids p)) {t : Text} {pos : Int} {found : Option Node}
    (h : Derives g.store t (ids p) pos found) :
    Reaches (fun depth => g.parseTo depth t (some p.name) pos) found := by
  obtain ⟨depth, hdepth⟩ := h.matchAt
  refine ⟨⟨depth, fun depth' hle => ?_⟩, fun depth' => ?_⟩
  · rw [parseTo_eq hlookup, matchAt_mono hle hdepth]
  · rw [parseTo_eq hlookup]
    exact h.matchAt_or_tooDeep hs.1.closed ⟨p, hp, rfl⟩ depth'

/-- What is read of a text is matched in the text up to there, with a tree alike. -/
theorem reaches_take [Platform] [Platform.ReadsTokens] {s rest : Text} {r : RulesSpelling}
    (hfull : full = true) (hread : readRules true s = some (r, rest)) : ∃ tree,
      Reaches (fun depth => g.parseTo depth (s.take r.text.length) (some "rules".toText) 0) (some tree) ∧
        tree.same (r.node s ids) = true ∧ tree.stop = r.text.length := by
  subst hfull
  have htake : s.take r.text.length = r.text := by
    rw [readRules_text hread, List.take_left]
  have hderives : Derives g.store (s.take r.text.length) _ 0 _ := derives_rules hs.1
  rw [htake, readRules_alone hread, ← htake] at hderives
  refine ⟨r.node (s.take r.text.length) ids, hs.reaches (p := .rules) nofun hs.2.1 hderives, ?_, r.stop_node _ _⟩
  obtain ⟨depth, hmatch⟩ := hderives.matchAt
  have htiles := matchAt_tiles hmatch
  rw [← (recasts_inText (s.take r.text.length) s ids).rules r]
  refine Node.same_inText (p := r.text.length) fun m hm => ⟨(htiles m hm).text_eq, ?_, (htiles m hm).within.1, ?_⟩
  · exact Node.start_le_of_mem_nodes htiles m hm
  · rw [← r.stop_node (s.take r.text.length) ids]
    exact Node.stop_le_of_mem_nodes htiles m hm

/-- The layout at the start of a text is matched in the text up to there. -/
theorem reaches_layout_take [Platform] [Platform.ReadsTokens] {s rest : Text} {layout : Layout}
    (hread : readLayout s = (layout, rest)) :
    ∃ found : Node, found.stop = (Layout.text layout).length ∧
      Reaches (fun depth => g.parseTo depth (s.take (Layout.text layout).length) (some "_".toText) 0)
        (some found) := by
  have htext := readLayout_text s
  have halone : readLayout (Layout.text layout ++ []) = (layout, []) := readLayout_alone nofun hread
  rw [hread] at htext
  have htake : s.take (Layout.text layout).length = Layout.text layout := by rw [htext, List.take_left]
  have hderives : Derives g.store (Layout.text layout) _ _ _ := derives_layout hs.1 (Nat.zero_le _)
  rw [List.append_nil] at halone
  rw [List.drop_zero, halone] at hderives
  rw [htake]
  exact ⟨_, congrArg Nat.cast (Nat.zero_add _), hs.reaches (p := .layout) nofun hs.2.2 hderives⟩

end SpeaksAs

/-! ## Where reading stops -/

theorem holds_space (c : Codepoint) : space.holds c = Codepoint.isSpace c.toNat := by
  simp [Regex.CharSet.holds, space, Regex.CharSet.memberHolds, Regex.CharSet.spellings,
    Regex.CharSet.classHolds, Regex.CharClass.holds]

theorem Cuts.readBlank {s rest : Text} {ps : List Piece} (h : Cuts s ps rest) (hs : readBlank s = none) :
    Syntax.readBlank rest = none := by
  induction h with
  | nil => exact hs
  | @cons s s' rest t ps _ _ ih => exact ih (readBlank_readLayout s')

/-- No layout is left where reading stopped. -/
theorem readBlank_readRules {s rest : Text} {r : RulesSpelling} (h : readRules true s = some (r, rest)) :
    readBlank rest = none := (takes_rules h).1.readBlank (readBlank_readLayout s)

/-- No rule is read behind the layout at the start if none are read. -/
theorem readRule_of_readRules {full : Bool} {s : Text} (h : readRules full s = none) :
    readRule full (readLayout s).2 = none := by
  unfold readRules at h
  split at h
  · next hmany => exact (many_eq_nil readRule_text RuleSpelling.text_ne_nil (Nat.le_refl _) hmany).2
  · cases h

end Syntax

namespace Grammar

open Syntax

/-- A text that is read to its end is not refused for where reading stopped. -/
theorem definitions_ne_stoppedAt [Platform] (r : RulesSpelling) (start : Option Text) (t : Text)
    (p : Int) :
    (r.definitions >>= fun ds => ofBuild (Definition.assemble ds) start) ≠ .error (.stoppedAt t p) := by
  intro h
  rcases bind_eq_error h with herr | ⟨ds, hds, herr⟩
  · rcases definitionsAfter_error herr with hwriting | ⟨name, heq⟩
    · exact hwriting
    · cases heq
  · by_cases hcomplete : Definition.Complete ds
    · rw [Definition.ofBuild_complete hcomplete (definitions_ne_nil hds)] at herr
      split at herr
      · cases herr
      · split at herr <;> cases herr
    · obtain ⟨name, hname⟩ := Definition.ofBuild_missing hcomplete start
      cases hname.symm.trans herr

/-- The two ways for reading to stop: behind rules and before the end, or behind layout and
before what is no rule. -/
theorem stoppedAt_cases [Platform] [Platform.ReadsTokens] {depth : Nat} {s t : Text}
    {start : Option Text} {p : Int} {reader : Grammar}
    (h : compileTo depth s start = .error (.stoppedAt t p)) (hreader : definitions = .ok reader)
    (hs : SpeaksAs true definitionIds reader) : t = s ∧
    ((∃ r rest, readRules true s = some (r, rest) ∧ rest ≠ [] ∧ p = r.text.length ∧
      reader.parseTo depth s (some "rules".toText) 0 = .ok (some (r.node s definitionIds))) ∨
    (readRules true s = none ∧ p = (Layout.text (readLayout s).1).length ∧
      reader.parseTo depth s (some "rules".toText) 0 = .ok none)) := by
  have hnot : ∀ r, readRules true s ≠ some (r, []) := by
    intro r hread
    rcases (compileTo_of_read hread).2 depth with hcompile | hcompile
    · exact definitions_ne_stoppedAt r start t p ((hcompile start).symm.trans h)
    · cases (hcompile start).symm.trans h
  rw [compileTo, hreader, Except.bind, readSourceTo] at h
  rcases hs.parseTo_rules depth s with hparse | hparse
  · rw [hparse] at h
    rcases hread : readRules true s with _ | ⟨r, rest⟩
    · rw [hread] at hparse h
      rcases hs.parseTo_layout depth s with hlayout | hlayout
      · simp only [Option.map_none, hlayout] at h
        cases h
        exact ⟨rfl, .inr ⟨rfl, congrArg Nat.cast (Nat.zero_add _), hparse⟩⟩
      · simp only [Option.map_none, hlayout] at h
        cases h
    · rw [hread] at hparse h
      have hrest : rest ≠ [] := fun hnil => hnot r (hnil ▸ hread)
      have hstop : ¬ (r.node s definitionIds).stop = s.length := fun hstop => hrest ((stop_eq_length hread).1 hstop)
      simp only [Option.map_some, if_neg hstop] at h
      cases h
      exact ⟨rfl, .inl ⟨r, rest, rfl, hrest, r.stop_node _ _, hparse⟩⟩
  · rw [hparse] at h
    cases h

/-- A text that does not nest too deep is refused where reading stopped behind rules. -/
theorem compileTo_stops [Platform] [Platform.ReadsTokens] {s rest : Text} {r : RulesSpelling}
    (hread : readRules true s = some (r, rest)) (hrest : rest ≠ []) {depth : Nat}
    (hdepth : 18 + 13 * nesting s 0 < depth) (start : Option Text) :
    compileTo depth s start = .error (.stoppedAt s r.text.length) := by
  obtain ⟨reader, hs, hcompile⟩ := compileTo_eq
  have hparse := hs.parseTo_rules_of_nesting hdepth
  have hstop : ¬ (r.node s definitionIds).stop = s.length := fun hstop => hrest ((stop_eq_length hread).1 hstop)
  rw [hread, Option.map_some] at hparse
  rw [hcompile, readSourceTo, hparse]
  dsimp only
  rw [if_neg hstop, r.stop_node]
  rfl

/-- Where a text is not read any further.  If a definition text is refused because its match
stops before the end or fails, the offset that is given lies in the text, with neither white
space nor a comment there.  Either the match stopped there before the end of the text, and the
text up to there is matched to its end by a tree that is alike.  Or there was no match, and
what comes before the offset is layout only, and no rule is matched at the offset. -/
theorem compile_stopped [Platform] [Platform.ReadsTokens] {depth : Nat} {s t : Text}
    {start : Option Text} {p : Int} {reader : Grammar}
    (h : compileTo depth s start = .error (.stoppedAt t p)) (hreader : definitions = .ok reader) :
    t = s ∧ 0 ≤ p ∧ p ≤ s.length ∧
    (∀ c, s[p.toNat]? = some c → Codepoint.isSpace c.toNat = false ∧ c ≠ '#') ∧
    ((∃ tree, reader.parseTo depth s (some "rules".toText) 0 = .ok (some tree) ∧ tree.stop = p ∧
      p < s.length ∧ ∃ tree',
        Reaches (fun depth => reader.parseTo depth (s.take p.toNat) (some "rules".toText) 0) (some tree') ∧
        tree'.same tree = true ∧ tree'.stop = p) ∨
    (reader.parseTo depth s (some "rules".toText) 0 = .ok none ∧
      (∃ layout, layout.stop = p ∧
        Reaches (fun depth => reader.parseTo depth (s.take p.toNat) (some "_".toText) 0) (some layout)) ∧
      Reaches (fun depth => reader.parseTo depth s (some "rule".toText) p) none)) := by
  obtain ⟨_, hreader', hs, -, hlookup⟩ := definitions_rules
  obtain rfl := Except.ok.inj (hreader'.symm.trans hreader)
  obtain ⟨rfl, ⟨r, rest, hread, hrest, rfl, hparse⟩ | ⟨hread, rfl, hparse⟩⟩ := stoppedAt_cases h hreader hs
  · have htext := readRules_text hread
    have hlength := congrArg List.length htext
    have hpos := List.length_pos_iff.2 hrest
    rw [List.length_append] at hlength
    refine ⟨rfl, Int.natCast_nonneg _, by omega, fun c hc => ?_, .inl ⟨_, hparse, r.stop_node _ _, by omega,
      SpeaksAs.reaches_take hs rfl hread⟩⟩
    rw [Int.toNat_natCast, ← List.head?_drop, htext, List.drop_left] at hc
    rw [← holds_space]
    exact readBlank_eq_none.1 (readBlank_readRules hread) c hc
  · have htext := readLayout_text t
    have hlength := congrArg List.length htext
    rw [List.length_append] at hlength
    have hdrop : (Layout.text (readLayout t).1 ++ (readLayout t).2).drop (Layout.text (readLayout t).1).length =
        (readLayout t).2 := List.drop_left
    rw [← htext] at hdrop
    refine ⟨rfl, Int.natCast_nonneg _, by omega, fun c hc => ?_, .inr ⟨hparse, ?_, ?_⟩⟩
    · rw [Int.toNat_natCast, ← List.head?_drop, hdrop] at hc
      rw [← holds_space]
      exact readBlank_eq_none.1 (readBlank_readLayout t) c hc
    · exact SpeaksAs.reaches_layout_take hs rfl
    · have hrule : Store.Derives _ t _ (Layout.text (readLayout t).1).length _ := derives_rule hs.1 (by omega)
      rw [hdrop, readRule_of_readRules hread] at hrule
      exact SpeaksAs.reaches hs (fun _ => rfl) (hlookup .rule (Part.mem_all _) (by decide)) hrule

/-- Two rules and a comment, with a stray sign before what would be a third rule. -/
def strayedSource : Text := "a = b* # c\nb = ~\"d\" ) e = f".toText

attribute [local instance] Platform.builtIn

/-- Reading stops behind the second rule, at the stray sign. -/
theorem compile_stopped_strayedSource :
    compile strayedSource none = .error (.stoppedAt strayedSource 20) ∧
    ∃ reader tree tree', definitions = .ok reader ∧
      reader.parseTo Store.depthLimit strayedSource (some "rules".toText) 0 = .ok (some tree) ∧
      Reaches (fun depth => reader.parseTo depth "a = b* # c\nb = ~\"d\" ".toText (some "rules".toText) 0)
        (some tree') ∧
      tree'.same tree = true ∧ tree'.stop = 20 := by
  obtain ⟨reader, hreader, hs⟩ := definitions_speaks
  obtain ⟨⟨r, rest⟩, hread, hlength, hrest⟩ : ∃ x ∈ readRules true strayedSource,
      x.1.text.length = 20 ∧ x.2 ≠ [] := by decide +kernel
  have hdepth : 18 + 13 * nesting strayedSource 0 < Store.depthLimit := by decide +kernel
  have hparse := hs.parseTo_rules_of_nesting hdepth
  have hcompile := compileTo_stops hread hrest hdepth none
  have htake : strayedSource.take (Int.toNat (20 : Nat)) = "a = b* # c\nb = ~\"d\" ".toText := by decide
  rw [hlength] at hcompile
  rw [hread] at hparse
  obtain ⟨-, -, -, -, ⟨tree, hmatch, -, -, tree', hreaches, hsame, hstop'⟩ | ⟨hnone, -⟩⟩ :=
    compile_stopped hcompile hreader
  · rw [htake] at hreaches
    rw [compile_eq_compileTo]
    exact ⟨hcompile, reader, tree, tree', hreader, hmatch, hreaches, hsame, hstop'⟩
  · cases hparse.symm.trans hnone

end Grammar

end Pegboard
