import Pegboard.Proofs.Definition.Assembly
import Pegboard.Proofs.Grammar.Limit

/-!
# Rendering the graph of definitions

Rendering an expression of the graph of definitions gives the text of the phrase that it
was built from.  `Phrase.rhs` is that text, and `Phrase.height` is the depth that it takes:
rendering to a smaller depth fails, and to any other depth it gives the text
(`renderAt_linked`).  In a slot, a rule is written by its name, which takes no depth.

A grammar is rendered with its rule to start with in front.  `Definition.startFirst` puts
the definitions in that order.
-/

namespace Pegboard

open Store

namespace Phrase

/-- Whether a phrase needs parentheses as a member, of a quantifier or not. -/
def needsParens (inQuantifier : Bool) : Phrase → Bool
  | compound _ members => decide (1 < members.length)
  | unary _ _ => inQuantifier
  | _ => false

mutual

/-- A phrase as the right-hand side of a rule. -/
def rhs : Phrase → Text
  | literal text => Literal.write text
  | regex pattern => Literal.writePattern pattern.source ++ pattern.flags.letters
  | reference target => target
  | compound order members => Text.join (separator order) (slotTexts members)
  | unary wrap member =>
    leading wrap ++ parens (member.needsParens (isQuantifier wrap)) member.rhs ++ trailing wrap

/-- Phrases as the members of a sequence or choice. -/
def slotTexts : List Phrase → List Text
  | [] => []
  | p :: rest => parens (p.needsParens false) p.rhs :: slotTexts rest

end

mutual

/-- The depth that rendering a phrase takes. -/
def height : Phrase → Nat
  | literal _ | regex _ => 1
  | reference _ => 0
  | compound _ members => heightAll members + 1
  | unary _ member => member.height + 1

/-- The depth that rendering members takes. -/
def heightAll : List Phrase → Nat
  | [] => 0
  | p :: rest => max p.height (heightAll rest)

end

/-- A text if the depth is enough for it. -/
def upTo {α : Type} (height depth : Nat) (value : α) : Except Error α :=
  if height ≤ depth then .ok value else .error .tooDeep

theorem map_upTo {α β : Type} (f : α → β) (height depth : Nat) (value : α) :
    (upTo height depth value).map f = upTo height depth (f value) := by
  unfold upTo
  split <;> rfl

theorem upTo_succ {α : Type} (height depth : Nat) (value : α) :
    upTo (height + 1) (depth + 1) value = upTo height depth value := by
  simp only [upTo, Nat.add_le_add_iff_right]

theorem upTo_cons {α : Type} (height height' depth : Nat) (value : α) (values : List α) :
    (do return (← upTo height depth value) :: (← upTo height' depth values)) =
      upTo (max height height') depth (value :: values) := by
  by_cases h : height ≤ depth
  · by_cases h' : height' ≤ depth
    · rw [upTo, upTo, upTo, if_pos h, if_pos h', if_pos (Nat.max_le.2 ⟨h, h'⟩)]
      rfl
    · rw [upTo, upTo, upTo, if_pos h, if_neg h', if_neg fun hmax => h' (Nat.max_le.1 hmax).2]
      rfl
  · rw [upTo, upTo, if_neg h, upTo, if_neg fun hmax => h (Nat.max_le.1 hmax).1]
    rfl

variable {store : Store} {link : Text → ExprId}

/-- The rules of the targets are there and have their names, which are not empty. -/
def NamesRules (store : Store) (link : Text → ExprId) (targets : List Text) : Prop :=
  ∀ t ∈ targets, t ≠ [] ∧ ∃ cell, store[link t]? = some cell ∧ cell.name = t

/-- What a slot holds is written as its phrase, if the block in the slot is rendered so. -/
theorem memberText_linked {place : Option Place} {base : ExprId} {depth : Nat} {p : Phrase}
    (h : store.Holds base (p.cells (linked link) true [] place base))
    (hnames : NamesRules store link p.targets)
    (hrender : ¬ p.IsReference → store.renderAt depth (p.root base) = upTo p.height depth p.rhs)
    (inQuantifier : Bool) :
    store.memberText (store.renderAt depth) inQuantifier (linked link base p) =
      upTo p.height depth (parens (p.needsParens inQuantifier) p.rhs) := by
  by_cases href : p.IsReference
  · cases p with
    | reference target =>
      obtain ⟨hne, cell, hcell, hname⟩ := hnames target (by simp [targets])
      have hempty : cell.name.isEmpty = false := by
        rw [hname]
        simpa using hne
      rw [memberText, linked, hcell]
      dsimp only
      rw [hempty, hname]
      rfl
    | _ => exact absurd href id
  · obtain ⟨cell, hcell, hname, hparens⟩ : ∃ cell, store[p.root base]? = some cell ∧ cell.name = [] ∧
        Store.needsParens inQuantifier cell.form = p.needsParens inQuantifier := by
      cases p with
      | literal text => exact ⟨_, h.only, rfl, rfl⟩
      | regex pattern => exact ⟨_, h.only, rfl, rfl⟩
      | reference target => exact absurd trivial href
      | compound order members =>
        simp only [cells] at h
        exact ⟨_, by simpa [root, offset] using h.last, rfl, by simp [Store.needsParens, needsParens]⟩
      | unary wrap member =>
        simp only [cells] at h
        exact ⟨_, by simpa [root, offset] using h.last, rfl, rfl⟩
    rw [linked_eq_root href, memberText, hcell]
    dsimp only
    rw [hname, List.isEmpty_nil, if_pos rfl, hrender href, map_upTo, hparens]

mutual

/-- The expression of a block is rendered as its phrase. -/
theorem renderAt_linked {name : Text} {place : Option Place} {base : ExprId} :
    ∀ {p : Phrase}, ¬ p.IsReference → store.Holds base (p.cells (linked link) true name place base) →
      NamesRules store link p.targets →
      ∀ depth, store.renderAt depth (p.root base) = upTo p.height depth p.rhs
  | literal _, _, _, _, 0 => rfl
  | regex _, _, _, _, 0 => rfl
  | compound _ _, _, _, _, 0 => rfl
  | unary _ _, _, _, _, 0 => rfl
  | reference _, href, _, _, _ => absurd trivial href
  | literal _, _, h, _, depth + 1 => by
    rw [renderAt, root, offset, Nat.add_zero, h.only]
    rfl
  | regex _, _, h, _, depth + 1 => by
    rw [renderAt, root, offset, Nat.add_zero, h.only]
    rfl
  | compound order members, _, h, hnames, depth + 1 => by
    simp only [cells] at h
    simp only [targets] at hnames
    have hcell : store[(compound order members).root base]? =
        some ⟨name, .compound order (entries (linked link) base members) true⟩ := by
      simpa [root, offset] using h.last
    rw [renderAt, hcell]
    dsimp only
    rw [renderAll_linked h.left hnames depth, map_upTo, height, rhs, upTo_succ]
  | unary wrap member, _, h, hnames, depth + 1 => by
    simp only [cells] at h
    simp only [targets] at hnames
    have hcell : store[(unary wrap member).root base]? =
        some ⟨name, .unary wrap (linked link base member)⟩ := by
      simpa [root, offset] using h.last
    have hmember := memberText_linked h.left hnames
      (fun href => renderAt_linked href h.left hnames depth) (isQuantifier wrap)
    rw [renderAt, hcell]
    dsimp only
    rw [hmember, map_upTo, height, rhs, upTo_succ]

theorem renderAll_linked {seat : Nat → Option Place} {slot : Nat} {base : ExprId} :
    ∀ {ps : List Phrase}, store.Holds base (cellsAll (linked link) true seat slot base ps) →
      NamesRules store link (targetsAll ps) →
      ∀ depth, renderAll (store.memberText (store.renderAt depth) false) (entries (linked link) base ps) =
        upTo (heightAll ps) depth (slotTexts ps)
  | [], _, _, depth => rfl
  | p :: rest, h, hnames, depth => by
    obtain ⟨hfirst, hrest⟩ := Holds.cellsAll_cons h
    have hnames' : NamesRules store link p.targets :=
      fun t ht => hnames t (by simp only [targetsAll, List.mem_append]; exact .inl ht)
    have hnamesRest : NamesRules store link (targetsAll rest) :=
      fun t ht => hnames t (by simp only [targetsAll, List.mem_append]; exact .inr ht)
    have hmember := memberText_linked hfirst hnames'
      (fun href => renderAt_linked href hfirst hnames' depth) false
    rw [entries, renderAll, hmember, renderAll_linked hrest hnamesRest depth, heightAll, slotTexts]
    exact upTo_cons _ _ _ _ _

end

end Phrase

/-! ## Rules -/

namespace Definition

variable {ds : List Definition}

/-- The definition that an expression of a graph belongs to, and its number in the block of
the definition. -/
def locate : List Definition → Nat → Option (Definition × Nat)
  | [], _ => none
  | d :: rest, e =>
    if e ≤ d.phrase.offset then some (d, e) else locate rest (e - (d.phrase.offset + 1))

theorem locate_first (d : Definition) (rest : List Definition) {k : Nat} (hk : k ≤ d.phrase.offset) :
    locate (d :: rest) k = some (d, k) := by
  rw [locate, if_pos hk]

theorem locate_rest (d : Definition) (rest : List Definition) (e : Nat) :
    locate (d :: rest) (d.phrase.offset + 1 + e) = locate rest e := by
  rw [locate, if_neg (by omega), Nat.add_sub_cancel_left]

/-- Each definition has its block, and its rule is the last expression of the block. -/
theorem exists_block {store : Store} {entry : ExprId → Phrase → ExprId} : ∀ {ds : List Definition}
    {base : Nat}, store.Holds base (cellsFrom entry true base ds) → (ds.map label).Nodup →
    ∀ d ∈ ds, ∃ b : Nat, store.Holds (base + b) (d.phrase.cells entry true d.label none (base + b)) ∧
      (rulesFrom base ds).lookup d.label = some (d.phrase.root (base + b)) ∧
      ∀ k ≤ d.phrase.offset, locate ds (b + k) = some (d, k) := by
  intro ds
  induction ds with
  | nil => exact fun _ _ => nofun
  | cons d rest ih =>
    intro base h hlabels d' hd'
    rw [List.map_cons, List.nodup_cons] at hlabels
    obtain ⟨hfirst, hrest⟩ := Holds.cellsFrom_cons h
    rcases List.mem_cons.1 hd' with rfl | hd'
    · refine ⟨0, hfirst, ?_, fun k hk => ?_⟩
      · rw [rulesFrom, List.lookup_cons_self]
        rfl
      · rw [Nat.zero_add]
        exact locate_first d' rest hk
    · obtain ⟨b, hblock, hlookup, hlocate⟩ := ih hrest hlabels.2 d' hd'
      have hbase : base + d.phrase.offset + 1 + b = base + (d.phrase.offset + 1 + b) := by omega
      rw [hbase] at hblock hlookup
      refine ⟨d.phrase.offset + 1 + b, hblock, ?_, fun k hk => ?_⟩
      · have hne : (d'.label == d.label) = false :=
          beq_false_of_ne fun heq => hlabels.1 (heq ▸ List.mem_map_of_mem hd')
        rw [rulesFrom, List.lookup_cons, hne]
        exact hlookup
      · rw [Nat.add_assoc, locate_rest, hlocate k hk]

/-- The block of a definition in the graph. -/
theorem exists_block_graph (hlabels : (ds.map label).Nodup) {d : Definition} (hd : d ∈ ds) :
    ∃ b : Nat, (graph ds).Holds b (d.phrase.cells (Phrase.linked (ruleOf ds)) true d.label none b) ∧
      ruleOf ds d.label = d.phrase.root b ∧
      ∀ k ≤ d.phrase.offset, locate ds (b + k) = some (d, k) := by
  obtain ⟨b, hblock, hlookup, hlocate⟩ := exists_block (holds_toArray _) hlabels d hd
  rw [Nat.zero_add] at hblock hlookup
  exact ⟨b, hblock, by rw [ruleOf, hlookup, Option.getD_some], hlocate⟩

/-- A rule as it is written. -/
def ruleText (d : Definition) : Text := d.label ++ " = ".toText ++ d.phrase.rhs

/-- Rules as they are written, one a line. -/
def rulesText (ds : List Definition) : Text := Text.join ['\n'] (ds.map ruleText)

theorem namesRules_graph (h : Complete ds) (hne : ∀ d ∈ ds, d.label ≠ []) {ts : List Text}
    (hts : ∀ t ∈ ts, t ∈ targets ds) : Phrase.NamesRules (graph ds) (ruleOf ds) ts := by
  intro t ht
  have hmem := h t (hts t ht)
  obtain ⟨d, hd, hlabel⟩ := List.mem_map.1 hmem
  refine ⟨hlabel ▸ hne d hd, ?_⟩
  obtain ⟨cell, hcell, hname, -⟩ := exists_cell_of_mem_rulesFrom
    (holds_toArray (cellsFrom (Phrase.linked (ruleOf ds)) true 0 ds)) _
    (mem_of_lookup (lookup_rulesFrom hmem))
  exact ⟨cell, hcell, hname⟩

/-- A rule of the graph is rendered as its definition. -/
theorem renderRuleTo_graph (h : Complete ds) (hlabels : (ds.map label).Nodup)
    (hne : ∀ d ∈ ds, d.label ≠ []) {d : Definition} (hd : d ∈ ds) (depth : Nat) :
    (graph ds).renderRuleTo depth (ruleOf ds d.label) =
      Phrase.upTo d.phrase.height depth d.ruleText := by
  obtain ⟨b, hblock, hrule, -⟩ := exists_block_graph hlabels hd
  have htargets : ∀ t ∈ d.phrase.targets, t ∈ targets ds := by
    intro t ht
    rw [phrase, Phrase.targets_wrapped] at ht
    exact List.mem_flatMap.2 ⟨d, hd, ht⟩
  have hrender := Phrase.renderAt_linked d.phrase_not_isReference hblock
    (namesRules_graph h hne htargets) depth
  obtain ⟨cell, hcell, hname, -⟩ := Phrase.exists_root d.phrase_not_isReference hblock
  have hnameOf : (graph ds).nameOf (d.phrase.root b) = d.label := by
    rw [nameOf, hcell, Option.map_some, Option.getD_some, hname]
  have hempty : d.label.isEmpty = false := by simpa using hne d hd
  rw [hrule, renderRuleTo, hrender, Phrase.map_upTo, hnameOf, hempty,
    if_neg Bool.false_ne_true]
  rfl

/-! ## Grammars -/

/-- The definitions with the one to start with in front. -/
def startFirst (ds : List Definition) (start : Text) : List Definition :=
  (ds.find? fun d => d.label == start).toList ++ ds.filter fun d => d.label != start

theorem mem_startFirst {start : Text} {d : Definition} (h : d ∈ startFirst ds start) : d ∈ ds := by
  rw [startFirst, List.mem_append, Option.mem_toList, List.mem_filter] at h
  rcases h with h | h
  · exact List.mem_of_find?_eq_some h
  · exact h.1

/-- The grammar of definitions with a rule to start with. -/
def grammar (ds : List Definition) (start : Text) : Grammar :=
  ⟨graph ds, ⟨rulesFrom 0 ds, start⟩⟩

/-- A table whose names are distinct is known by its names and what is looked up. -/
theorem eq_map_lookup : ∀ {rules : Rules}, (rules.map (·.1)).Nodup →
    rules = (rules.map (·.1)).map fun name => (name, (rules.lookup name).getD 0) := by
  intro rules
  induction rules with
  | nil =>
    intro _
    rfl
  | cons r rest ih =>
    intro hnodup
    obtain ⟨name, e⟩ := r
    rw [List.map_cons, List.nodup_cons] at hnodup
    rw [List.map_cons, List.map_cons, List.lookup_cons_self, Option.getD_some]
    refine congrArg _ ((ih hnodup.2).trans (List.map_congr_left fun other hother => ?_))
    have hne : (other == name) = false :=
      beq_false_of_ne fun heq => hnodup.1 (heq ▸ hother)
    rw [List.lookup_cons, hne]

theorem rulesFrom_eq_map (hlabels : (ds.map label).Nodup) :
    rulesFrom 0 ds = ds.map fun d => (d.label, ruleOf ds d.label) := by
  have h := eq_map_lookup (names_rulesFrom 0 ds ▸ hlabels)
  rw [names_rulesFrom, List.map_map] at h
  exact h

/-- The rules of a grammar, the one to start with first. -/
theorem rootsFromStart_grammar (hlabels : (ds.map label).Nodup) (start : Text) :
    (grammar ds start).table.rootsFromStart =
      (startFirst ds start).map fun d => ruleOf ds d.label := by
  rw [RuleTable.rootsFromStart, startFirst, List.map_append, grammar]
  dsimp only
  refine congr (congrArg _ ?_) ?_
  · rcases hfind : ds.find? fun d => d.label == start with _ | d
    · have hstart : start ∉ ds.map label := by
        intro hmem
        obtain ⟨d, hd, hlabel⟩ := List.mem_map.1 hmem
        exact List.find?_eq_none.1 hfind d hd (beq_iff_eq.2 hlabel)
      rw [lookup_rulesFrom_of_not_mem hstart, hfind]
      rfl
    · have hlabel : d.label = start := by simpa using List.find?_some hfind
      have hmem : d.label ∈ ds.map label := List.mem_map_of_mem (List.mem_of_find?_eq_some hfind)
      rw [hfind, ← hlabel, lookup_rulesFrom hmem]
      rfl
  · rw [rulesFrom_eq_map hlabels, List.filter_map, List.map_map]
    rfl

/-- A grammar of definitions is rendered as their rules, one a line. -/
theorem renderTo_grammar (h : Complete ds) (hlabels : (ds.map label).Nodup)
    (hne : ∀ d ∈ ds, d.label ≠ []) (start : Text) (depth : Nat) :
    (grammar ds start).renderTo depth =
      Phrase.upTo (Phrase.heightAll ((startFirst ds start).map phrase)) depth
        (rulesText (startFirst ds start)) := by
  have hall : ∀ rs : List Definition, (∀ d ∈ rs, d ∈ ds) →
      renderAll ((graph ds).renderRuleTo depth) (rs.map fun d => ruleOf ds d.label) =
        Phrase.upTo (Phrase.heightAll (rs.map phrase)) depth (rs.map ruleText) := by
    intro rs
    induction rs with
    | nil =>
      intro _
      rfl
    | cons d rest ih =>
      intro hrs
      rw [List.map_cons, renderAll, renderRuleTo_graph h hlabels hne (hrs d List.mem_cons_self) depth,
        ih fun d' hd' => hrs d' (List.mem_cons_of_mem d hd')]
      exact Phrase.upTo_cons _ _ _ _ _
  rw [Grammar.renderTo, rootsFromStart_grammar hlabels]
  exact (congrArg _ (hall _ fun d hd => mem_startFirst hd)).trans (Phrase.map_upTo _ _ _ _)

end Definition

end Pegboard
