import Pegboard.Proofs.Definition.Linked
import Pegboard.Proofs.Definition.Rendering
import Pegboard.Proofs.Syntax.Printing

/-!
# Phrases and rules that are read back

The phrases that a definition text can stand for are `Written`: references have labels,
sequences and choices have two members at least, and the bound of a repetition is one.  The
text of such a phrase has a spelling that stands for it and is read back, with any layout
after it (`printable_of_written`).  Parentheses stand where the ranks of spellings want a
group.

Rules are written one a line, and so are read back as a whole, whatever text is read back for
each right-hand side (`readRules_ruleLines`).  Their own texts are the first case of this
(`readRules_rulesText`).
-/

namespace Pegboard

open Syntax Store

namespace Phrase

mutual

/-- A phrase that a definition text can stand for. -/
def Written [Platform] : Phrase → Prop
  | literal _ => True
  | regex pattern => pattern.Accepted
  | reference target => ∃ label : Label, label.text = target
  | compound _ members => 1 < members.length ∧ WrittenAll members
  | unary wrap member =>
    (wrap = .negation ∨ wrap = .lookahead ∨ ∃ q : Quantifier, wrap = q.wrap) ∧ member.Written

/-- Phrases that a definition text can stand for. -/
def WrittenAll [Platform] : List Phrase → Prop
  | [] => True
  | p :: rest => p.Written ∧ WrittenAll rest

end

mutual

/-- The texts of the literals in a phrase. -/
def literals : Phrase → List Text
  | literal text => [text]
  | regex _ | reference _ => []
  | compound _ members => literalsAll members
  | unary _ member => member.literals

/-- The texts of the literals in phrases. -/
def literalsAll : List Phrase → List Text
  | [] => []
  | p :: rest => p.literals ++ literalsAll rest

end

end Phrase

namespace Syntax

/-! ## What texts stand for -/

/-- What a spelling stands for is written. -/
def Meaning.Written [Platform] : {r : Rank} → Meaning r → Prop
  | .terms, ps | .branches, ps => ps ≠ [] ∧ Phrase.WrittenAll ps
  | .atom, p | .term, p | .expression, p => Phrase.Written p

theorem written_sequenceOf [Platform] {ps : List Phrase} (hne : ps ≠ [])
    (h : Phrase.WrittenAll ps) :
    (sequenceOf ps).Written := by
  match ps with
  | [] => exact absurd rfl hne
  | [p] => exact h.1
  | p :: q :: rest => exact ⟨by simp, h⟩

theorem written_phrase [Platform] {r : Rank} (c : Spelling r) : ∀ {n : Nat} {m : Meaning r},
    c.phrase n = .ok m → m.Written := by
  induction c with
  | reference label after =>
    intro n m h
    cases h
    exact ⟨label, rfl⟩
  | literal quoted after =>
    intro n m h
    rw [Spelling.phrase, Quoted.literalPhrase] at h
    split at h
    · cases h
      exact trivial
    · cases h
  | regex quoted flags after =>
    intro n m h
    obtain ⟨pattern, hpattern, rfl⟩ := map_eq_ok h
    exact Regex.Pattern.accepted_of_ofWritten hpattern
  | group before inner after ih =>
    intro n m h
    exact ih h
  | negation member ih =>
    intro n m h
    obtain ⟨p, hp, rfl⟩ := map_eq_ok h
    exact ⟨.inl rfl, ih hp⟩
  | lookahead member ih =>
    intro n m h
    obtain ⟨p, hp, rfl⟩ := map_eq_ok h
    exact ⟨.inr (.inl rfl), ih hp⟩
  | quantified member quantifier after ih =>
    intro n m h
    obtain ⟨p, hp, rfl⟩ := map_eq_ok h
    exact ⟨.inr (.inr ⟨quantifier, rfl⟩), ih hp⟩
  | plain atom ih =>
    intro n m h
    exact ih h
  | last term ih =>
    intro n m h
    obtain ⟨p, hp, rfl⟩ := map_eq_ok h
    exact ⟨List.cons_ne_nil _ _, ih hp, trivial⟩
  | more term rest ih ih' =>
    intro n m h
    obtain ⟨p, hp, h⟩ := bind_eq_ok h
    obtain ⟨ps, hps, h⟩ := bind_eq_ok h
    cases h
    exact ⟨List.cons_ne_nil _ _, ih hp, (ih' hps).2⟩
  | lastBranch before terms ih =>
    intro n m h
    obtain ⟨ps, hps, rfl⟩ := map_eq_ok h
    exact ⟨List.cons_ne_nil _ _, written_sequenceOf (ih hps).1 (ih hps).2, trivial⟩
  | moreBranches before terms rest ih ih' =>
    intro n m h
    obtain ⟨ps, hps, h⟩ := bind_eq_ok h
    obtain ⟨qs, hqs, h⟩ := bind_eq_ok h
    cases h
    exact ⟨List.cons_ne_nil _ _, written_sequenceOf (ih hps).1 (ih hps).2, (ih' hqs).2⟩
  | single terms ih =>
    intro n m h
    obtain ⟨ps, hps, rfl⟩ := map_eq_ok h
    exact written_sequenceOf (ih hps).1 (ih hps).2
  | choice first rest ih ih' =>
    intro n m h
    obtain ⟨ps, hps, h⟩ := bind_eq_ok h
    obtain ⟨qs, hqs, h⟩ := bind_eq_ok h
    cases h
    have hlength : 0 < List.length qs := List.length_pos_iff.2 (ih' hqs).1
    refine ⟨?_, written_sequenceOf (ih hps).1 (ih hps).2, (ih' hqs).2⟩
    rw [List.length_cons]
    omega

/-! ## Phrases -/

/-- A phrase can be written at every rank, with any layout after it. -/
structure Printable [Platform] (p : Phrase) : Prop where
  /-- As the right-hand side of a rule. -/
  rhs : ∀ after, ∃ e : Spelling .expression, Prints e p p.rhs after
  /-- As a member. -/
  slot : ∀ after, ∃ t : Spelling .term, Prints t p (parens (p.needsParens false) p.rhs) after
  /-- As the member of a quantifier. -/
  member : ∀ after, ∃ a : Spelling .atom, Prints a p (parens (p.needsParens true) p.rhs) after

theorem prints_expression [Platform] {t : Spelling .term} {p : Phrase} {text : Text}
    {after : Layout} (h : Prints t p text after) : Prints (.single (.last t)) p text after :=
  prints_single (prints_last h)

/-- A phrase that is written as an atom. -/
theorem printable_of_atom [Platform] {p : Phrase}
    (hparens : ∀ inQuantifier, p.needsParens inQuantifier = false)
    (h : ∀ after, ∃ a : Spelling .atom, Prints a p p.rhs after) : Printable p where
  rhs after := by
    obtain ⟨a, ha⟩ := h after
    exact ⟨_, prints_expression (prints_plain ha)⟩
  slot after := by
    obtain ⟨a, ha⟩ := h after
    rw [hparens]
    exact ⟨_, prints_plain ha⟩
  member after := by
    rw [hparens]
    exact h after

/-- A phrase that is written as a term. -/
theorem printable_of_term [Platform] {p : Phrase}
    (hparens : ∀ inQuantifier, p.needsParens inQuantifier = inQuantifier)
    (h : ∀ after, ∃ t : Spelling .term, Prints t p p.rhs after) : Printable p where
  rhs after := by
    obtain ⟨t, ht⟩ := h after
    exact ⟨_, prints_expression ht⟩
  slot after := by
    rw [hparens]
    exact h after
  member after := by
    obtain ⟨t, ht⟩ := h []
    rw [hparens]
    exact ⟨_, prints_group (prints_expression ht)⟩

/-- A phrase that is written as an expression of its own. -/
theorem printable_of_expression [Platform] {p : Phrase}
    (hparens : ∀ inQuantifier, p.needsParens inQuantifier = true)
    (h : ∀ after, ∃ e : Spelling .expression, Prints e p p.rhs after) : Printable p where
  rhs := h
  slot after := by
    obtain ⟨e, he⟩ := h []
    rw [hparens]
    exact ⟨_, prints_plain (prints_group he)⟩
  member after := by
    obtain ⟨e, he⟩ := h []
    rw [hparens]
    exact ⟨_, prints_group he⟩

theorem join_slotTexts (order : Order) (p q : Phrase) (rest : List Phrase) :
    Text.join (separator order) (Phrase.slotTexts (p :: q :: rest)) =
      parens (p.needsParens false) p.rhs ++
        (separator order ++ Text.join (separator order) (Phrase.slotTexts (q :: rest))) := by
  simp only [Phrase.slotTexts, Text.join, List.append_assoc]

/-- The members of a sequence, with a blank between neighbours. -/
theorem prints_terms [Platform] {after : Layout} :
    ∀ {ps : List Phrase}, ps ≠ [] → (∀ p ∈ ps, Printable p) →
    ∃ ts : Spelling .terms,
      Prints ts ps (Text.join (separator .sequence) (Phrase.slotTexts ps)) after := by
  intro ps
  induction ps with
  | nil => exact fun hne _ => absurd rfl hne
  | cons p rest ih =>
    intro _ h
    cases rest with
    | nil =>
      obtain ⟨t, ht⟩ := (h p List.mem_cons_self).slot after
      exact ⟨_, prints_last ht⟩
    | cons q rest =>
      obtain ⟨t, ht⟩ := (h p List.mem_cons_self).slot blankGap
      obtain ⟨ts, hts⟩ := ih (List.cons_ne_nil _ _) fun p' hp' => h p' (List.mem_cons_of_mem p hp')
      refine ⟨.more t ts, ?_⟩
      rw [join_slotTexts]
      exact prints_more ht hts

/-- The members of a choice after the first one, each with its slash. -/
theorem prints_branches [Platform] {after : Layout} :
    ∀ {ps : List Phrase}, ps ≠ [] → (∀ p ∈ ps, Printable p) →
    ∃ bs : Spelling .branches,
      Prints bs ps (.char '/' :: .char ' ' :: Text.join (separator .choice) (Phrase.slotTexts ps)) after := by
  intro ps
  induction ps with
  | nil => exact fun hne _ => absurd rfl hne
  | cons p rest ih =>
    intro _ h
    cases rest with
    | nil =>
      obtain ⟨t, ht⟩ := (h p List.mem_cons_self).slot after
      exact ⟨_, prints_lastBranch (prints_last ht)⟩
    | cons q rest =>
      obtain ⟨t, ht⟩ := (h p List.mem_cons_self).slot blankGap
      obtain ⟨bs, hbs⟩ := ih (List.cons_ne_nil _ _) fun p' hp' => h p' (List.mem_cons_of_mem p hp')
      refine ⟨.moreBranches blankGap (.last t) bs, ?_⟩
      rw [join_slotTexts]
      exact prints_moreBranches (prints_last ht) hbs

theorem prints_compound [Platform] {order : Order} {ps : List Phrase} (hlength : 1 < ps.length)
    (h : ∀ p ∈ ps, Printable p) (after : Layout) : ∃ e : Spelling .expression,
      Prints e (.compound order ps) (Phrase.compound order ps).rhs after := by
  match ps with
  | [] | [_] => simp at hlength
  | p :: q :: rest =>
    have hrest : ∀ p' ∈ q :: rest, Printable p' := fun p' hp' => h p' (List.mem_cons_of_mem p hp')
    cases order with
    | sequence =>
      obtain ⟨ts, hts⟩ := prints_terms (List.cons_ne_nil p _) h
      exact ⟨_, prints_single hts⟩
    | choice =>
      obtain ⟨t, ht⟩ := (h p List.mem_cons_self).slot blankGap
      obtain ⟨bs, hbs⟩ := prints_branches (List.cons_ne_nil q rest) hrest
      refine ⟨.choice (.last t) bs, ?_⟩
      rw [Phrase.rhs, join_slotTexts]
      exact prints_choice (prints_last ht) hbs

mutual

/-- What a definition text can stand for can be written so that it is read back, if there is no
surrogate in its literals. -/
theorem printable_of_written [Platform] : ∀ {p : Phrase}, p.Written →
    (∀ text ∈ p.literals, text.NoSurrogate) → Printable p
  | .literal _, _, hs => printable_of_atom (fun _ => rfl) fun _ => prints_literal (hs _ List.mem_cons_self)
  | .regex _, h, _ => printable_of_atom (fun _ => rfl) fun _ => prints_regex h
  | .reference _, h, _ => by
    obtain ⟨label, rfl⟩ := h
    exact printable_of_atom (fun _ => rfl) fun _ => ⟨_, prints_reference label⟩
  | .compound order members, h, hs => by
    refine printable_of_expression (fun _ => decide_eq_true h.1) fun after => ?_
    exact prints_compound h.1 (printable_of_writtenAll h.2 hs) after
  | .unary wrap member, h, hs => by
    have hmember := printable_of_written h.2 hs
    refine printable_of_term (fun _ => rfl) fun after => ?_
    rcases h.1 with rfl | rfl | ⟨q, rfl⟩
    · obtain ⟨t, ht⟩ := hmember.slot after
      refine ⟨.negation t, ?_⟩
      rw [Phrase.rhs, trailing, List.append_nil]
      exact prints_negation ht
    · obtain ⟨t, ht⟩ := hmember.slot after
      refine ⟨.lookahead t, ?_⟩
      rw [Phrase.rhs, trailing, List.append_nil]
      exact prints_lookahead ht
    · obtain ⟨a, ha⟩ := hmember.member []
      refine ⟨.quantified a q after, ?_⟩
      have hquantified := (prints_quantified ha q : Prints _ _ _ after)
      rw [Phrase.rhs]
      cases q <;> exact hquantified

theorem printable_of_writtenAll [Platform] : ∀ {ps : List Phrase}, Phrase.WrittenAll ps →
    (∀ text ∈ Phrase.literalsAll ps, text.NoSurrogate) → ∀ p ∈ ps, Printable p
  | [], _, _, _, hp => absurd hp List.not_mem_nil
  | q :: rest, h, hs, p, hp => by
    obtain ⟨hq, hrest⟩ := List.forall_mem_append.1 hs
    rcases List.mem_cons.1 hp with heq | hp
    · rw [heq]
      exact printable_of_written h.1 hq
    · exact printable_of_writtenAll h.2 hrest p hp

end

/-! ## Rules -/

/-- A label ends at a blank. -/
theorem readLabel_blank (label : Label) (s : Text) :
    readLabel (label.text ++ .char ' ' :: s) = some (label, .char ' ' :: s) := by
  refine readLabel_append label fun c hc => ?_
  obtain rfl : Codepoint.char ' ' = c := Option.some.inj hc
  decide

theorem readLayout_equals (s : Text) :
    readLayout (.char ' ' :: .char '=' :: s) = (blankGap, .char '=' :: s) :=
  readLayout_gap _ (readBlank_sign (by decide) (by decide) s)

/-- No rule starts a term or a branch: its label is followed by an equals sign. -/
theorem free_rule (label : Label) (s : Text) :
    Free .expression (label.text ++ .char ' ' :: .char '=' :: s) := by
  refine free_label label ?_
  rw [readReference, readLabel_blank]
  dsimp only
  rw [readLayout_equals]
  rfl

end Syntax

namespace Definition

/-- A definition that a rule can stand for. -/
def Written [Platform] (d : Definition) : Prop :=
  (∃ label : Label, label.text = d.label) ∧ d.body.Written

/-- A rule that is read back from its label and a text for its right-hand side. -/
def ReadFrom [Platform] (d : Definition) (body : Text) : Prop :=
  (∃ label : Label, label.text = d.label) ∧
    ∀ after, ∃ e : Spelling .expression, Prints e d.body body after

/-- Rules with the texts of their right-hand sides, one a line. -/
def ruleLines (rules : List (Definition × Text)) : Text :=
  Text.join [.char '\n'] (rules.map fun (d, body) => d.label ++ " = ".toText ++ body)

/-- A rule with a sequence around its reference is written like the reference. -/
theorem rhs_phrase (d : Definition) : d.phrase.rhs = d.body.rhs := by
  obtain ⟨label, body⟩ := d
  cases body <;> rfl

theorem rulesText_eq_ruleLines (ds : List Definition) :
    rulesText ds = ruleLines (ds.map fun d => (d, d.phrase.rhs)) := by
  rw [rulesText, ruleLines, List.map_map]
  rfl

theorem Written.readFrom [Platform] {d : Definition} (h : d.Written)
    (hs : ∀ text ∈ d.body.literals, text.NoSurrogate) : d.ReadFrom d.phrase.rhs := by
  rw [rhs_phrase]
  exact ⟨h.1, (printable_of_written h.2 hs).rhs⟩

/-- Rules are one rule, a line break and the others. -/
theorem ruleLines_cons (d : Definition) (body : Text) (next : Definition × Text)
    (rest : List (Definition × Text)) : ruleLines ((d, body) :: next :: rest) =
      d.label ++ " = ".toText ++ body ++ .char '\n' :: ruleLines (next :: rest) := by
  simp [ruleLines, Text.join]

end Definition

namespace Syntax

open Definition (ruleLines ruleLines_cons)

variable {d : Definition} {body : Text} {rules rest : List (Definition × Text)}

/-- A rule is read back, with any layout after it. -/
theorem exists_rule [Platform] (h : d.ReadFrom body) (after : Layout) : ∃ r : RuleSpelling,
    r.text = d.label ++ " = ".toText ++ body ++ Layout.text after ∧ (∀ n, r.definition n = .ok d) ∧
    ∀ rest, Follows after rest → Free .expression rest → readRule true (r.text ++ rest) = some (r, rest) := by
  obtain ⟨⟨label, hlabel⟩, hbody⟩ := h
  obtain ⟨e, he⟩ := hbody after
  have htext : (RuleSpelling.mk label blankGap blankGap e).text =
      label.text ++ .char ' ' :: .char '=' :: .char ' ' :: e.text := rfl
  refine ⟨⟨label, blankGap, blankGap, e⟩, ?_, fun n => ?_, fun rest hfollows hfree => ?_⟩
  · rw [htext, he.text_eq, hlabel]
    simp [String.toText]
  · rw [RuleSpelling.definition, he.phrase_eq, hlabel]
    rfl
  · have hlayout : readLayout (.char ' ' :: (e.text ++ rest)) = (blankGap, e.text ++ rest) := by
      obtain ⟨c, s, hstart, hc⟩ := starts_expression e
      rw [hstart]
      exact readLayout_gap _ (hc.readBlank _)
    have hexpression : readExpression true ((.char ' ' :: (e.text ++ rest)).length + 1) (e.text ++ rest) =
        some (e, rest) := by
      refine he.reads ?_ hfollows hfree
      rw [List.length_cons, List.length_append]
      omega
    rw [htext, List.append_assoc]
    simp only [List.cons_append]
    rw [readRule, readLabel_blank]
    dsimp only
    rw [readLayout_equals]
    simp only [hlayout, hexpression, Option.map_some]

/-- A rule may follow a line break. -/
theorem follows_rule (label : Label) (s : Text) :
    Follows (gap '\n' (by decide)) (label.text ++ s) := by
  have hstarts : StartsTerm label.first := .inl label.first_ok
  refine follows_gap _ (by decide) (hstarts.readBlank _) ?_
  rw [Label.text, List.cons_append, List.head?_cons, ne_eq, Option.some.injEq]
  exact hstarts.distinct.2.2.1

/-- The text may end after a rule. -/
theorem follows_nil : Follows [] [] := ⟨rfl, nofun, nofun⟩

/-- Rules start with the label of the first one. -/
theorem starts_ruleLines {label : Label} (hlabel : label.text = d.label) :
    ∀ rest, ∃ s, ruleLines ((d, body) :: rest) = label.text ++ .char ' ' :: .char '=' :: s := by
  intro rest
  cases rest with
  | nil =>
    refine ⟨.char ' ' :: body, ?_⟩
    simp [ruleLines, Text.join, hlabel, String.toText]
  | cons next rest =>
    refine ⟨.char ' ' :: (body ++ .char '\n' :: ruleLines (next :: rest)), ?_⟩
    rw [ruleLines_cons]
    simp [hlabel, String.toText]

/-- The first of rules that are written one a line is read back. -/
theorem exists_first [Platform] (h : ∀ x ∈ (d, body) :: rest, x.1.ReadFrom x.2) :
    ∃ r : RuleSpelling, (∀ n, r.definition n = .ok d) ∧
      readRule true (ruleLines ((d, body) :: rest)) = some (r, ruleLines rest) := by
  have hd : d.ReadFrom body := h (d, body) List.mem_cons_self
  cases rest with
  | nil =>
    obtain ⟨r, htext, hdefinition, hread⟩ := exists_rule hd []
    have hr : r.text ++ [] = ruleLines [(d, body)] := by
      rw [htext]
      simp [ruleLines, Text.join, Layout.text]
    exact ⟨r, hdefinition, hr ▸ hread [] follows_nil free_nil⟩
  | cons next rest =>
    obtain ⟨r, htext, hdefinition, hread⟩ := exists_rule hd (gap '\n' (by decide))
    obtain ⟨⟨label, hlabel⟩, -⟩ := h next (List.mem_cons_of_mem _ List.mem_cons_self)
    obtain ⟨s, hs⟩ := starts_ruleLines hlabel rest
    have hr : r.text ++ ruleLines (next :: rest) = ruleLines ((d, body) :: next :: rest) := by
      rw [htext, text_gap, ruleLines_cons, List.append_assoc, List.singleton_append]
    refine ⟨r, hdefinition, hr ▸ hread _ ?_ ?_⟩
    · rw [hs]
      exact follows_rule label _
    · rw [hs]
      exact free_rule label s

/-- Rules that are written one a line are read back one by one. -/
theorem exists_rules [Platform] :
    ∀ {rules : List (Definition × Text)}, (∀ x ∈ rules, x.1.ReadFrom x.2) →
    (rules.map (·.1.label)).Nodup → ∃ rs : List RuleSpelling,
      many (readRule true) (ruleLines rules).length (ruleLines rules) = (rs, []) ∧
      ∀ (labels : List Text) (n : Nat), (∀ x ∈ rules, x.1.label ∉ labels) →
        definitionsAfter labels rs n = .ok (rules.map (·.1)) := by
  intro rules
  induction rules with
  | nil =>
    intro _ _
    exact ⟨[], rfl, fun _ _ _ => rfl⟩
  | cons x rest ih =>
    obtain ⟨d, body⟩ := x
    intro hread hnodup
    rw [List.map_cons, List.nodup_cons] at hnodup
    obtain ⟨r, hdefinition, hfirst⟩ := exists_first hread
    obtain ⟨rs, hrs, hdefinitions⟩ :=
      ih (fun x hx => hread x (List.mem_cons_of_mem _ hx)) hnodup.2
    refine ⟨r :: rs, ?_, fun labels n hfresh => ?_⟩
    · rw [many_cons readRule_text RuleSpelling.text_ne_nil hfirst, hrs]
    · have hnew : labels.contains d.label = false := by
        simpa using hfresh (d, body) List.mem_cons_self
      have hrest : ∀ x ∈ rest, x.1.label ∉ d.label :: labels := by
        intro x hx
        rw [List.mem_cons, not_or]
        exact ⟨fun heq => hnodup.1 (heq ▸ List.mem_map_of_mem (f := fun x => x.1.label) hx),
          hfresh x (List.mem_cons_of_mem _ hx)⟩
      rw [definitionsAfter, hdefinition]
      dsimp only [bind, Except.bind]
      rw [hnew, if_neg Bool.false_ne_true, hdefinitions _ _ hrest]
      rfl

/-- Rules that are written one a line are read back as a whole, and stand for their
definitions. -/
theorem readRules_ruleLines [Platform] (hne : rules ≠ []) (hread : ∀ x ∈ rules, x.1.ReadFrom x.2)
    (hnodup : (rules.map (·.1.label)).Nodup) : ∃ r : RulesSpelling,
      readRules true (ruleLines rules) = some (r, []) ∧ r.definitions = .ok (rules.map (·.1)) := by
  obtain ⟨rs, hrs, hdefinitions⟩ := exists_rules hread hnodup
  obtain ⟨⟨d, body⟩, rest, rfl⟩ := List.exists_cons_of_ne_nil hne
  have hlayout : readLayout (ruleLines ((d, body) :: rest)) = ([], ruleLines ((d, body) :: rest)) := by
    obtain ⟨⟨label, hlabel⟩, -⟩ := hread (d, body) List.mem_cons_self
    obtain ⟨s, hs⟩ := starts_ruleLines hlabel rest
    rw [hs]
    exact readLayout_of_none (StartsTerm.readBlank (.inl label.first_ok) _)
  have hds := hdefinitions [] 0 fun _ _ => List.not_mem_nil
  cases rs with
  | nil => cases hds
  | cons r rs =>
    refine ⟨⟨[], r, rs⟩, ?_, hds⟩
    rw [readRules, hlayout]
    dsimp only
    rw [hrs]

/-- The text of rules is read back as a whole, and stands for the definitions. -/
theorem readRules_rulesText [Platform] {ds : List Definition} (hne : ds ≠ [])
    (hwritten : ∀ d ∈ ds, d.Written) (hs : ∀ d ∈ ds, ∀ text ∈ d.body.literals, text.NoSurrogate)
    (hnodup : (ds.map (·.label)).Nodup) : ∃ r : RulesSpelling,
      readRules true (Definition.rulesText ds) = some (r, []) ∧ r.definitions = .ok ds := by
  rw [Definition.rulesText_eq_ruleLines]
  have hread : ∀ x ∈ ds.map fun d => (d, d.phrase.rhs), x.1.ReadFrom x.2 := by
    intro x hx
    obtain ⟨d, hd, rfl⟩ := List.mem_map.1 hx
    exact (hwritten d hd).readFrom (hs d hd)
  have hmap : (ds.map fun d => (d, d.phrase.rhs)).map (·.1) = ds := by
    rw [List.map_map]
    exact List.map_id ds
  have hruleLines := readRules_ruleLines (mt List.map_eq_nil_iff.1 hne) hread (by rwa [List.map_map])
  rwa [hmap] at hruleLines

end Syntax

end Pegboard
