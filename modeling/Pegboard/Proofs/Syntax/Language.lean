import Pegboard.Proofs.Syntax.Bootstrap
import Pegboard.Proofs.Syntax.Engine
import Pegboard.Proofs.Syntax.Rereading

/-!
# The definition language

The language as it is described to its users: a grammar over the tokens of a text.  Nothing
in it is ordered or greedy.  A reference is a label that no equals sign follows, and a mark
stands right before its term, so the grammar is over lexemes, which know whether layout
comes after them, and a form is what lexemes start with, given with the lexemes that are
left (`Forms`).

The grammar of definitions matches a text to its end if and only if the text splits into
lexemes that form rules (`definitions_accepts`).  Whatever is read is cut from the text and
has a form, reader by reader (`Takes`).  In the other direction lexemes of a form are those
of a spelling (`Forms.exists_spelling`), which is read again wherever its lexemes stand.
-/

namespace Pegboard

namespace Syntax

/-! ## Forms -/

/-- What the lexemes start with at a rank, and the lexemes after it. -/
inductive Forms : Rank → List Lexeme → List Lexeme → Prop where
  | reference {label : Label} {spaced : Bool} {rest : List Lexeme}
      (free : ∀ spaced' rest', rest ≠ ⟨.sign .equals, spaced'⟩ :: rest') :
    Forms .atom (⟨.label label, spaced⟩ :: rest) rest
  | literal {quoted : Quoted} {spaced : Bool} {rest : List Lexeme} :
    Forms .atom (⟨.literal quoted, spaced⟩ :: rest) rest
  | regex {quoted : Quoted} {flags : FlagText} {spaced : Bool} {rest : List Lexeme} :
    Forms .atom (⟨.regex quoted flags, spaced⟩ :: rest) rest
  | group {spaced spaced' : Bool} {ls rest : List Lexeme}
      (inner : Forms .expression ls (⟨.sign .closing, spaced'⟩ :: rest)) :
    Forms .atom (⟨.sign .opening, spaced⟩ :: ls) rest
  | negation {ls rest : List Lexeme} (member : Forms .term ls rest) :
    Forms .term (⟨.sign .negation, false⟩ :: ls) rest
  | lookahead {ls rest : List Lexeme} (member : Forms .term ls rest) :
    Forms .term (⟨.sign .lookahead, false⟩ :: ls) rest
  | quantified {q : Quantifier} {spaced : Bool} {ls rest : List Lexeme}
      (member : Forms .atom ls (⟨.sign (.quantifier q), spaced⟩ :: rest)) : Forms .term ls rest
  | plain {ls rest : List Lexeme} (atom : Forms .atom ls rest) : Forms .term ls rest
  | last {ls rest : List Lexeme} (term : Forms .term ls rest) : Forms .terms ls rest
  | more {ls mid rest : List Lexeme} (term : Forms .term ls mid) (terms : Forms .terms mid rest) :
    Forms .terms ls rest
  | lastBranch {spaced : Bool} {ls rest : List Lexeme} (terms : Forms .terms ls rest) :
    Forms .branches (⟨.sign .slash, spaced⟩ :: ls) rest
  | moreBranches {spaced : Bool} {ls mid rest : List Lexeme} (terms : Forms .terms ls mid)
      (branches : Forms .branches mid rest) :
    Forms .branches (⟨.sign .slash, spaced⟩ :: ls) rest
  | single {ls rest : List Lexeme} (terms : Forms .terms ls rest) : Forms .expression ls rest
  | choice {ls mid rest : List Lexeme} (first : Forms .terms ls mid)
      (branches : Forms .branches mid rest) : Forms .expression ls rest

/-- The lexemes start with a slash and the terms of an alternative. -/
def FormsBranch (ls rest : List Lexeme) : Prop :=
  ∃ spaced mid, ls = ⟨.sign .slash, spaced⟩ :: mid ∧ Forms .terms mid rest

/-- The lexemes start with a rule. -/
inductive FormsRule : List Lexeme → List Lexeme → Prop where
  | rule {label : Label} {spaced spaced' : Bool} {ls rest : List Lexeme}
      (body : Forms .expression ls rest) :
    FormsRule (⟨.label label, spaced⟩ :: ⟨.sign .equals, spaced'⟩ :: ls) rest

/-- The lexemes start with rules, at least one. -/
inductive FormsRules : List Lexeme → List Lexeme → Prop where
  | last {ls rest : List Lexeme} (rule : FormsRule ls rest) : FormsRules ls rest
  | more {ls mid rest : List Lexeme} (rule : FormsRule ls mid) (rules : FormsRules mid rest) :
    FormsRules ls rest

/-- A text is in the definition language. -/
def InLanguage (s : Text) : Prop := ∃ ls, Lexed s ls ∧ FormsRules ls []

/-! ## What is read has a form -/

/-- What a reader takes is cut from the text, and is of a form, whatever the lexemes are after
it. -/
def Takes {α : Type} (read : Text → Option (α × Text)) (pieces : α → List Piece)
    (form : List Lexeme → List Lexeme → Prop) : Prop :=
  ∀ {s : Text} {a : α} {s' : Text}, read s = some (a, s') → Cuts s (pieces a) s' ∧
    ∀ {rest : List Lexeme}, Lexes s' rest → form ((pieces a).map Piece.lexeme ++ rest) rest

section Takes

theorem takes_reference : Takes readReference Spelling.pieces (Forms .atom) := by
  intro s a s' h
  unfold readReference at h
  split at h
  · cases h
  · next label s'' hlabel =>
    split at h
    · cases h
    · next hequals =>
      cases h
      have hreads : (Token.label label).Reads s s'' := hlabel
      refine ⟨.single hreads, fun hrest => .reference fun spaced' rest' heq => hequals ?_⟩
      exact hrest.spells.head?_eq_equals.2 ⟨spaced', rest', heq⟩

theorem takes_literal : Takes readLiteral Spelling.pieces (Forms .atom) := by
  intro s a s' h
  unfold readLiteral at h
  split at h
  · cases h
  · next quoted s'' hquoted =>
    cases h
    have hreads : (Token.literal quoted).Reads s s'' := hquoted
    exact ⟨.single hreads, fun _ => .literal⟩

theorem takes_regex : Takes readRegex Spelling.pieces (Forms .atom) := by
  intro s a s' h
  unfold readRegex at h
  split at h
  · split at h
    · cases h
    · next quoted s'' hquoted =>
      cases h
      have hreads : (Token.regex quoted (readFlags s'').1).Reads _ (readFlags s'').2 :=
        ⟨_, s'', rfl, hquoted, rfl⟩
      exact ⟨.single hreads, fun _ => .regex⟩
  · cases h

theorem reads_sign (g : Sign) (s : Text) : (Token.sign g).Reads (g.symbol :: s) s := rfl

variable {inner : Text → Option (Spelling .expression × Text)}
  (hinner : Takes inner Spelling.pieces (Forms .expression))
include hinner

theorem takes_group : Takes (readGroup inner) Spelling.pieces (Forms .atom) := by
  intro s a s' h
  unfold readGroup at h
  split at h
  · next s₁ =>
    split at h
    · next e s₂ he =>
      cases h
      obtain ⟨hcuts, hform⟩ := hinner he
      have hclosing := Cuts.single (reads_sign .closing s₂)
      refine ⟨.cons (reads_sign .opening s₁) (hcuts.append hclosing), fun hrest => ?_⟩
      have hls := hform (hclosing.lexes hrest)
      simp only [Spelling.pieces, List.map_cons, List.map_append, List.cons_append, List.append_assoc]
      exact .group hls
    · cases h
  · cases h

theorem takes_atom : Takes (readAtom true inner) Spelling.pieces (Forms .atom) := by
  intro s a s' h
  unfold readAtom at h
  rcases Option.or_eq_some_iff.1 h with h | ⟨-, h⟩
  · exact takes_reference h
  rcases Option.or_eq_some_iff.1 h with h | ⟨-, h⟩
  · exact takes_literal h
  rcases Option.or_eq_some_iff.1 h with h | ⟨-, h⟩
  · exact takes_regex h
  rw [if_pos rfl] at h
  exact takes_group hinner h

theorem takes_quantified : Takes (readQuantified true inner) Spelling.pieces (Forms .term) := by
  intro s t s' h
  unfold readQuantified at h
  split at h
  · cases h
  · next atom s₁ hatom =>
    obtain ⟨hcuts, hform⟩ := takes_atom hinner hatom
    split at h
    · cases h
      exact ⟨hcuts, fun hrest => .plain (hform hrest)⟩
    · next q s₂ hq =>
      cases h
      have hreads : (Token.sign (.quantifier q)).Reads s₁ s₂ := readQuantifier_text hq
      have hsign := Cuts.single hreads
      refine ⟨hcuts.append hsign, fun hrest => ?_⟩
      have hls := hform (hsign.lexes hrest)
      simp only [Spelling.pieces, List.map_append, List.append_assoc]
      exact .quantified hls

omit hinner in
/-- A sign before a term, with no layout between. -/
theorem cuts_sign (g : Sign) {s rest : Text} {t : Spelling .term} (h : Cuts s t.pieces rest) :
    Cuts (g.symbol :: s) (⟨.sign g, []⟩ :: t.pieces) rest := by
  have hlayout : readLayout s = ([], s) := by
    obtain ⟨c, s', htext, hc⟩ := starts_term t
    rw [h.text_eq, t.textOf_pieces, htext]
    exact readLayout_of_none (hc.readBlank _)
  have hcuts := Cuts.cons (reads_sign g s) (by rwa [hlayout] : Cuts (readLayout s).2 t.pieces rest)
  rwa [hlayout] at hcuts

theorem takes_term : Takes (readTerm true inner) Spelling.pieces (Forms .term) := by
  intro s
  induction s with
  | nil =>
    intro t s' h
    cases h
  | cons c s ih =>
    intro t s' h
    rw [readTerm] at h
    split at h
    · next hc =>
      obtain ⟨⟨member, s''⟩, hmember, heq⟩ := Option.map_eq_some_iff.1 h
      cases heq
      obtain ⟨hcuts, hform⟩ := ih hmember
      exact ⟨hc ▸ cuts_sign .negation hcuts, fun hrest => .negation (hform hrest)⟩
    · split at h
      · next hc =>
        rw [if_pos rfl] at h
        obtain ⟨⟨member, s''⟩, hmember, heq⟩ := Option.map_eq_some_iff.1 h
        cases heq
        obtain ⟨hcuts, hform⟩ := ih hmember
        exact ⟨hc ▸ cuts_sign .lookahead hcuts, fun hrest => .lookahead (hform hrest)⟩
      · exact takes_quantified hinner h

omit hinner in
/-- What is read over and over is one thing of a form, or such a thing before others. -/
theorem takes_many {α : Type} {step : Text → Option (α × Text)} {pieces : α → List Piece}
    {form forms : List Lexeme → List Lexeme → Prop} (hstep : Takes step pieces form)
    (hlast : ∀ {ls rest}, form ls rest → forms ls rest)
    (hmore : ∀ {ls mid rest}, form ls mid → forms mid rest → forms ls rest) {fuel : Nat} :
    ∀ {s s' : Text} {a : α} {as : List α}, many step fuel s = (a :: as, s') →
      Cuts s ((a :: as).flatMap pieces) s' ∧ ∀ {rest : List Lexeme}, Lexes s' rest →
        forms (((a :: as).flatMap pieces).map Piece.lexeme ++ rest) rest := by
  induction fuel with
  | zero =>
    intro s s' a as h
    cases h
  | succ fuel ih =>
    intro s s' a as h
    rw [many] at h
    split at h
    · cases h
    · next a' s₁ hread =>
      obtain ⟨hcuts, hform⟩ := hstep hread
      rcases hmany : many step fuel s₁ with ⟨_ | ⟨b, bs⟩, s₂⟩
      · rw [hmany] at h
        cases h
        rw [many_nil hmany] at hcuts hform
        rw [List.flatMap_singleton]
        exact ⟨hcuts, fun hrest => hlast (hform hrest)⟩
      · rw [hmany] at h
        cases h
        obtain ⟨hmore', hforms⟩ := ih hmany
        rw [List.flatMap_cons]
        refine ⟨hcuts.append hmore', fun hrest => ?_⟩
        rw [List.map_append, List.append_assoc]
        exact hmore (hform (hmore'.lexes hrest)) (hforms hrest)

theorem takes_terms : Takes (readTerms true inner) Spelling.pieces (Forms .terms) := by
  intro s ts s' h
  unfold readTerms at h
  split at h
  · cases h
  · next t ts' s'' hmany =>
    cases h
    rw [Spelling.pieces_ofTerms]
    exact takes_many (takes_term hinner) .last .more hmany

theorem takes_branch : Takes (readBranch true inner) Spelling.branchPieces FormsBranch := by
  intro s b s' h
  unfold readBranch at h
  split at h
  · next s₁ =>
    obtain ⟨⟨terms, s''⟩, hterms, heq⟩ := Option.map_eq_some_iff.1 h
    cases heq
    obtain ⟨hcuts, hform⟩ := takes_terms hinner hterms
    exact ⟨.cons (reads_sign .slash s₁) hcuts, fun hrest => ⟨_, _, rfl, hform hrest⟩⟩
  · cases h

theorem takes_branches : Takes (readBranches true inner) Spelling.pieces (Forms .branches) := by
  intro s bs s' h
  unfold readBranches at h
  split at h
  · cases h
  · next b bs' s'' hmany =>
    cases h
    rw [Spelling.pieces_ofBranches]
    refine takes_many (takes_branch hinner) ?_ ?_ hmany
    · rintro ls rest ⟨spaced, mid, rfl, hform⟩
      exact .lastBranch hform
    · rintro ls mid rest ⟨spaced, mid', rfl, hform⟩ hforms
      exact .moreBranches hform hforms

theorem takes_choice : Takes (readChoice true inner) Spelling.pieces (Forms .expression) := by
  intro s e s' h
  rw [readChoice_eq] at h
  obtain ⟨⟨terms, s₁⟩, hterms, h⟩ := Option.bind_eq_some_iff.1 h
  obtain ⟨hcuts, hform⟩ := takes_terms hinner hterms
  dsimp only at h
  rcases hbranches : readBranches true inner s₁ with _ | ⟨bs, s₂⟩
  · rw [hbranches] at h
    cases h
    exact ⟨hcuts, fun hrest => .single (hform hrest)⟩
  · rw [hbranches] at h
    cases h
    obtain ⟨hcuts', hforms⟩ := takes_branches hinner hbranches
    refine ⟨hcuts.append hcuts', fun hrest => ?_⟩
    simp only [Spelling.pieces, List.map_append, List.append_assoc]
    exact .choice (hform (hcuts'.lexes hrest)) (hforms hrest)

end Takes

theorem takes_expression (fuel : Nat) :
    Takes (readExpression true fuel) Spelling.pieces (Forms .expression) := by
  induction fuel with
  | zero =>
    intro s e s' h
    cases h
  | succ fuel ih => exact takes_choice ih

theorem takes_rule : Takes (readRule true) RuleSpelling.pieces FormsRule := by
  intro s r s' h
  unfold readRule at h
  split at h
  · cases h
  · next label s₁ hlabel =>
    split at h
    · next s₂ hequals =>
      obtain ⟨⟨body, s''⟩, hbody, heq⟩ := Option.map_eq_some_iff.1 h
      cases heq
      obtain ⟨hcuts, hform⟩ := takes_expression _ hbody
      have hsign := Cuts.cons (reads_sign .equals s₂) hcuts
      have hreads : (Token.label label).Reads s s₁ := hlabel
      exact ⟨.cons hreads (hequals ▸ hsign), fun hrest => .rule (hform hrest)⟩
    · cases h

/-- A definition text that is read is cut into the pieces of its rules. -/
theorem takes_rules {s rest : Text} {r : RulesSpelling} (h : readRules true s = some (r, rest)) :
    Cuts (readLayout s).2 r.pieces rest ∧ ∀ {ls : List Lexeme}, Lexes rest ls →
      FormsRules (r.pieces.map Piece.lexeme ++ ls) ls := by
  unfold readRules at h
  split at h
  · cases h
  · next hmany =>
    cases h
    exact takes_many takes_rule .last .more hmany

theorem RulesSpelling.map_lexeme_pieces (r : RulesSpelling) :
    r.pieces.map Piece.lexeme = r.rules.flatMap RuleSpelling.lexemes := List.map_flatMap

theorem RulesSpelling.before_eq {s rest : Text} {r : RulesSpelling} (h : readRules true s = some (r, rest)) :
    r.before = (readLayout s).1 := by
  unfold readRules at h
  split at h
  · cases h
  · cases h
    rfl

/-! ## Forms are read -/

/-- Some layout, or none. -/
def layoutIf (spaced : Bool) : Layout := if spaced then blankGap else []

theorem lexeme_layoutIf (t : Token) (spaced : Bool) :
    Piece.lexeme ⟨t, layoutIf spaced⟩ = ⟨t, spaced⟩ := by
  cases spaced <;> rfl

/-- What has a form are the lexemes of a spelling. -/
theorem Forms.exists_spelling {r : Rank} {ls rest : List Lexeme} (h : Forms r ls rest) :
    ∃ c : Spelling r, ls = c.lexemes ++ rest := by
  induction h with
  | @reference label spaced rest free =>
    exact ⟨.reference label (layoutIf spaced), by simp [Spelling.lexemes, Spelling.pieces, lexeme_layoutIf]⟩
  | @literal quoted spaced rest =>
    exact ⟨.literal quoted (layoutIf spaced), by simp [Spelling.lexemes, Spelling.pieces, lexeme_layoutIf]⟩
  | @regex quoted flags spaced rest =>
    exact ⟨.regex quoted flags (layoutIf spaced),
      by simp [Spelling.lexemes, Spelling.pieces, lexeme_layoutIf]⟩
  | @group spaced spaced' ls rest inner ih =>
    obtain ⟨e, rfl⟩ := ih
    exact ⟨.group (layoutIf spaced) e (layoutIf spaced'),
      by simp [Spelling.lexemes, Spelling.pieces, lexeme_layoutIf]⟩
  | negation member ih =>
    obtain ⟨t, rfl⟩ := ih
    exact ⟨.negation t, rfl⟩
  | lookahead member ih =>
    obtain ⟨t, rfl⟩ := ih
    exact ⟨.lookahead t, rfl⟩
  | @quantified q spaced ls rest member ih =>
    obtain ⟨a, rfl⟩ := ih
    exact ⟨.quantified a q (layoutIf spaced), by simp [Spelling.lexemes, Spelling.pieces, lexeme_layoutIf]⟩
  | plain atom ih =>
    obtain ⟨a, rfl⟩ := ih
    exact ⟨.plain a, rfl⟩
  | last term ih =>
    obtain ⟨t, rfl⟩ := ih
    exact ⟨.last t, rfl⟩
  | more term terms ih ih' =>
    obtain ⟨ts, rfl⟩ := ih'
    obtain ⟨t, rfl⟩ := ih
    exact ⟨.more t ts, by simp [Spelling.lexemes, Spelling.pieces]⟩
  | @lastBranch spaced ls rest terms ih =>
    obtain ⟨ts, rfl⟩ := ih
    exact ⟨.lastBranch (layoutIf spaced) ts, by simp [Spelling.lexemes, Spelling.pieces, lexeme_layoutIf]⟩
  | @moreBranches spaced ls mid rest terms branches ih ih' =>
    obtain ⟨bs, rfl⟩ := ih'
    obtain ⟨ts, rfl⟩ := ih
    exact ⟨.moreBranches (layoutIf spaced) ts bs,
      by simp [Spelling.lexemes, Spelling.pieces, lexeme_layoutIf]⟩
  | single terms ih =>
    obtain ⟨ts, rfl⟩ := ih
    exact ⟨.single ts, rfl⟩
  | choice first branches ih ih' =>
    obtain ⟨bs, rfl⟩ := ih'
    obtain ⟨ts, rfl⟩ := ih
    exact ⟨.choice ts bs, by simp [Spelling.lexemes, Spelling.pieces]⟩

theorem FormsRule.exists_spelling {ls rest : List Lexeme} (h : FormsRule ls rest) :
    ∃ r : RuleSpelling, ls = r.lexemes ++ rest := by
  cases h with
  | @rule label spaced spaced' ls rest body =>
    obtain ⟨e, rfl⟩ := body.exists_spelling
    refine ⟨⟨label, layoutIf spaced, layoutIf spaced', e⟩, ?_⟩
    simp [RuleSpelling.lexemes, RuleSpelling.pieces, lexeme_layoutIf, Spelling.lexemes]

theorem FormsRules.exists_spelling {ls rest : List Lexeme} (h : FormsRules ls rest) :
    ∃ (r : RuleSpelling) (rs : List RuleSpelling), ls = (r :: rs).flatMap RuleSpelling.lexemes ++ rest := by
  induction h with
  | last rule =>
    obtain ⟨r, rfl⟩ := rule.exists_spelling
    exact ⟨r, [], by rw [List.flatMap_singleton]⟩
  | more rule rules ih =>
    obtain ⟨r', rs, rfl⟩ := ih
    obtain ⟨r, rfl⟩ := rule.exists_spelling
    exact ⟨r, r' :: rs, by simp only [List.flatMap_cons, List.append_assoc]⟩

/-- The texts of the definition language are those that are read to their end. -/
theorem inLanguage_iff {s : Text} : InLanguage s ↔ ∃ r, readRules true s = some (r, []) := by
  constructor
  · rintro ⟨ls, hlexed, hforms⟩
    obtain ⟨r, rs, hls⟩ := hforms.exists_spelling
    have hspells := (lexed_iff.1 hlexed).spells
    rw [hls, List.append_nil] at hspells
    obtain ⟨r', hread, -⟩ := exists_read_of_spells hspells
    exact ⟨r', hread⟩
  · rintro ⟨r, h⟩
    obtain ⟨hcuts, hforms⟩ := takes_rules h
    exact ⟨_, lexed_iff.2 (hcuts.lexes .nil), hforms .nil⟩

instance (s : Text) : Decidable (InLanguage s) :=
  decidable_of_iff ((readRules true s).map Prod.snd = some []) (by rw [inLanguage_iff]; simp)

-- a mark stands right before its term, and a label before an equals sign is no reference
example : InLanguage "a = !b c* # d\ne = \"f\"".toText := by decide +kernel

example : ¬ InLanguage "a = ! b".toText := by decide +kernel

end Syntax

/-! ## The grammar of definitions -/

namespace Grammar

open Syntax

/-- The grammar of definitions matches a text to its end if and only if the text is in the
definition language. -/
theorem definitions_accepts [Platform] [Platform.ReadsTokens] : ∃ g, definitions = .ok g ∧ ∀ s :
    Text, ∃ found,
    Reaches (fun depth => g.parseTo depth s (some "rules".toText) 0) found ∧
      ((∃ tree, found = some tree ∧ tree.stop = s.length) ↔ InLanguage s) := by
  obtain ⟨g, hg, hspeaks⟩ := definitions_speaks
  refine ⟨g, hg, fun s => ⟨(readRules true s).map fun x => x.1.node s definitionIds, ?_, ?_⟩⟩
  · exact {
      enough := ⟨18 + 13 * nesting s 0 + 1, fun depth hdepth =>
        hspeaks.parseTo_rules_of_nesting hdepth⟩
      otherwise := fun depth => hspeaks.parseTo_rules depth s }
  · rw [inLanguage_iff]
    constructor
    · rintro ⟨tree, htree, hstop⟩
      obtain ⟨⟨r, rest⟩, hread, rfl⟩ := Option.map_eq_some_iff.1 htree
      obtain rfl : rest = [] := (stop_eq_length hread).1 hstop
      exact ⟨r, hread⟩
    · rintro ⟨r, hread⟩
      exact ⟨_, by rw [hread]; rfl, (stop_eq_length hread).2 rfl⟩

attribute [local instance] Platform.builtIn

/-- A negation is matched to its end, but not with a blank behind the mark. -/
theorem definitions_accepts_negation : ∃ g tree found, definitions = .ok g ∧
    Reaches (fun depth => g.parseTo depth "a = !b".toText (some "rules".toText) 0) (some tree) ∧
    tree.stop = 6 ∧
    Reaches (fun depth => g.parseTo depth "a = ! b".toText (some "rules".toText) 0) found ∧
    ∀ tree', found = some tree' → tree'.stop ≠ 7 := by
  obtain ⟨g, hg, haccepts⟩ := definitions_accepts
  obtain ⟨accepted, hreaches, hiff⟩ := haccepts "a = !b".toText
  obtain ⟨tree, rfl, hstop⟩ := hiff.2 (by decide +kernel)
  obtain ⟨found, hreaches', hiff'⟩ := haccepts "a = ! b".toText
  have hnot : ¬ InLanguage "a = ! b".toText := by decide +kernel
  exact ⟨g, tree, found, hg, hreaches, hstop, hreaches',
    fun tree' hfound hstop' => hnot (hiff'.1 ⟨tree', hfound, hstop'⟩)⟩

end Grammar

end Pegboard
