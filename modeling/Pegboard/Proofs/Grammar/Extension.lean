import Pegboard.Proofs.Match.Bisimulation
import Pegboard.Proofs.Syntax.Bootstrap
import Pegboard.Proofs.Syntax.Engine
import Pegboard.Proofs.Syntax.Recast

/-!
# The grammar of definitions extends the core

The grammar of definitions tries two things that the core does not: lookahead among the
terms, and parentheses among the atoms.  Both start with a sign of their own, at which the
core reads nothing.  So they can only take part where the core has stopped: after the terms
of an alternative.  There a text that the core reads to its end goes on with a slash or with
the label of the next rule, or ends, and the grammar of definitions stops as well (`Quiet`).

Hence every text that the core reads to its end is read alike (`readRules_extends`), and as
the trees of a spelling are the same up to the numbers of the expressions
(`bare_node_rules`), the two grammars give trees that are alike.
-/

namespace Pegboard

namespace Syntax

open Regex

/-! ## Where both languages stop -/

/-- No term that only the whole language has starts here, with or without marks before it. -/
def Quiet (s : Text) : Prop :=
  s.head? ≠ some (Codepoint.char '!') ∧ s.head? ≠ some (Codepoint.char '&') ∧
    s.head? ≠ some (Codepoint.char '(')

theorem quiet_slash (s : Text) : Quiet (.char '/' :: s) :=
  ⟨by simp, by simp, by simp⟩

/-- The text ends, or goes on with a label. -/
def AtRule (s : Text) : Prop := ∀ c, s.head? = some c → labelStart.holds c = true

theorem atRule_nil : AtRule [] := nofun

theorem AtRule.ne_head {s : Text} (h : AtRule s) {c : Codepoint} (hc : labelStart.holds c = false) :
    s.head? ≠ some c := by
  intro hhead
  rw [h c hhead] at hc
  cases hc

theorem AtRule.quiet {s : Text} (h : AtRule s) : Quiet s :=
  ⟨h.ne_head rfl, h.ne_head rfl, h.ne_head rfl⟩

section

variable {inner inner' : Text → Option (Spelling .expression × Text)}

/-- Every atom of the core is one of the whole language. -/
theorem readAtom_extends {s : Text} {x : Spelling .atom × Text}
    (h : readAtom false inner s = some x) : readAtom true inner' s = some x := by
  unfold readAtom at h ⊢
  simp only [Option.or_eq_some_iff, Bool.false_eq_true, if_false, reduceCtorEq, and_false,
    or_false] at h ⊢
  rcases h with h | ⟨hreference, h | ⟨hliteral, h⟩⟩
  · exact .inl h
  · exact .inr ⟨hreference, .inl h⟩
  · exact .inr ⟨hreference, .inr ⟨hliteral, .inl h⟩⟩

/-- An atom that does not start with a parenthesis is one of the core. -/
theorem readAtom_quiet {s : Text} (h : s.head? ≠ some (Codepoint.char '(')) :
    readAtom true inner' s = readAtom false inner s := by
  have hgroup : readGroup inner' s = none := by
    unfold readGroup
    split
    · exact absurd rfl h
    · rfl
  rw [readAtom, readAtom, if_pos rfl, if_neg Bool.false_ne_true, hgroup]

/-- Every term of the core is one of the whole language. -/
theorem readTerm_extends : ∀ {s : Text} {x : Spelling .term × Text},
    readTerm false inner s = some x → readTerm true inner' s = some x := by
  intro s
  induction s with
  | nil =>
    intro x h
    cases h
  | cons c s ih =>
    intro x h
    rw [readTerm] at h ⊢
    split at h
    · next hc =>
      obtain ⟨y, hy, hx⟩ := Option.map_eq_some_iff.1 h
      rw [if_pos hc, ih hy, Option.map_some, hx]
    · next hbang =>
      rw [if_neg hbang]
      split at h
      · cases h
      · next hampersand =>
        rw [if_neg hampersand]
        unfold readQuantified at h ⊢
        split at h
        · cases h
        · next atom rest hatom =>
          rw [readAtom_extends hatom]
          exact h

/-- At a quiet place both languages have the same terms. -/
theorem readTerm_quiet {s : Text} (h : Quiet s) :
    readTerm true inner' s = readTerm false inner s := by
  cases s with
  | nil => rfl
  | cons c s =>
    have hbang : c ≠ '!' := fun hc => h.1 (congrArg some hc)
    have hampersand : c ≠ '&' := fun hc => h.2.1 (congrArg some hc)
    rw [readTerm, readTerm, if_neg hbang, if_neg hbang, if_neg hampersand, if_neg hampersand,
      readQuantified, readQuantified, readAtom_quiet h.2.2]

/-! ## From terms to rules -/

/-- What is read over and over is read alike if each round is, given that the rounds end at
a place that `P` holds of. -/
theorem many_extends {α : Type} {step step' : Text → Option (α × Text)} {P : Text → Prop}
    (hsome : ∀ {s a rest}, step s = some (a, rest) → (step rest = none → P rest) →
      step' s = some (a, rest))
    (hnone : ∀ {s}, step s = none → P s → step' s = none) :
    ∀ {fuel : Nat} {s : Text}, P (many step fuel s).2 → many step' fuel s = many step fuel s := by
  intro fuel
  induction fuel with
  | zero =>
    intro s _
    rfl
  | succ fuel ih =>
    intro s hok
    rw [many] at hok ⊢
    rw [many]
    rcases hstep : step s with _ | ⟨a, rest⟩
    · rw [hstep] at hok
      rw [hnone hstep hok]
    · rw [hstep] at hok
      dsimp only at hok
      have hrest : step rest = none → P rest := by
        intro hstop
        rw [many_none hstop] at hok
        exact hok
      rw [hsome hstep hrest]
      dsimp only
      rw [ih hok]

theorem readTerms_extends {s : Text} {ts : Spelling .terms} {rest : Text}
    (h : readTerms false inner s = some (ts, rest)) (hquiet : Quiet rest) :
    readTerms true inner' s = some (ts, rest) := by
  have hmany : many (readTerm true inner') s.length s = many (readTerm false inner) s.length s := by
    refine many_extends (P := Quiet) (fun h _ => readTerm_extends h)
      (fun h hquiet => (readTerm_quiet hquiet).trans h) ?_
    unfold readTerms at h
    split at h
    · cases h
    · next hsome =>
      cases h
      rw [hsome]
      exact hquiet
  rw [readTerms, hmany]
  exact h

/-- A branch starts at a quiet place. -/
theorem quiet_of_readBranch {s : Text} {x : (Layout × Spelling .terms) × Text}
    (h : readBranch false inner s = some x) : Quiet s := by
  unfold readBranch at h
  split at h
  · exact quiet_slash _
  · cases h

theorem readBranch_extends {s : Text} {b : Layout × Spelling .terms} {rest : Text}
    (h : readBranch false inner s = some (b, rest)) (hquiet : Quiet rest) :
    readBranch true inner' s = some (b, rest) := by
  unfold readBranch at h ⊢
  split at h
  · obtain ⟨⟨ts, rest'⟩, hterms, heq⟩ := Option.map_eq_some_iff.1 h
    cases heq
    rw [readTerms_extends hterms hquiet]
    rfl
  · cases h

/-- No branch starts with a label. -/
theorem AtRule.readBranch {s : Text} (h : AtRule s) : readBranch true inner' s = none := by
  unfold Syntax.readBranch
  split
  · exact absurd rfl (h.ne_head rfl)
  · rfl

/-- After a branch comes another one, or both languages stop. -/
theorem quiet_of_branches {s : Text} (h : readBranch false inner s = none → AtRule s) : Quiet s := by
  rcases hbranch : readBranch false inner s with _ | x
  · exact (h hbranch).quiet
  · exact quiet_of_readBranch hbranch

/-- Every expression of the core that a rule or the end follows is one of the whole
language. -/
theorem readChoice_extends
    (htext : ∀ {s e rest}, inner s = some (e, rest) → s = e.text ++ rest) {s : Text}
    {e : Spelling .expression} {rest : Text} (h : readChoice false inner s = some (e, rest))
    (hrest : AtRule rest) : readChoice true inner' s = some (e, rest) := by
  unfold readChoice at h ⊢
  split at h
  · cases h
  · next ts s' hterms =>
    have hstop : rest = (many (readBranch false inner) s'.length s').2 := by
      split at h
      · next hmany =>
        cases h
        rw [hmany]
        exact (many_eq_nil (readBranch_text htext) (fun b => List.cons_ne_nil _ _)
          (Nat.le_refl _) hmany).1.symm
      · next hmany =>
        cases h
        rw [hmany]
    rw [hstop] at hrest
    have hmany : many (readBranch true inner') s'.length s' =
        many (readBranch false inner) s'.length s' :=
      many_extends (P := AtRule)
        (fun h hnext => readBranch_extends h (quiet_of_branches hnext))
        (fun _ hrule => hrule.readBranch) hrest
    have hnext : readBranch false inner s' = none → AtRule s' := by
      intro hnone
      rw [many_none hnone] at hrest
      exact hrest
    rw [readTerms_extends hterms (quiet_of_branches hnext)]
    dsimp only
    rw [hmany]
    exact h

end

theorem readExpression_extends {fuel : Nat} {s : Text} {e : Spelling .expression} {rest : Text}
    (h : readExpression false fuel s = some (e, rest)) (hrest : AtRule rest) :
    readExpression true fuel s = some (e, rest) := by
  cases fuel with
  | zero => cases h
  | succ fuel => exact readChoice_extends readExpression_text h hrest

/-- A rule starts with a label. -/
theorem atRule_of_readRule {full : Bool} {s : Text} {x : RuleSpelling × Text}
    (h : readRule full s = some x) : AtRule s := by
  unfold readRule at h
  split at h
  · cases h
  · next label s' hlabel =>
    rw [readLabel_text hlabel]
    intro c hc
    cases hc
    exact label.first_ok

theorem readRule_extends {s : Text} {r : RuleSpelling} {rest : Text}
    (h : readRule false s = some (r, rest)) (hrest : AtRule rest) :
    readRule true s = some (r, rest) := by
  unfold readRule at h ⊢
  split at h
  · cases h
  · split at h
    · obtain ⟨⟨body, rest'⟩, hbody, heq⟩ := Option.map_eq_some_iff.1 h
      cases heq
      rw [readExpression_extends hbody hrest]
      rfl
    · cases h

/-- A text that is read to its end as rules of the core is read alike in the whole
language. -/
theorem readRules_extends {s : Text} {r : RulesSpelling} (h : readRules false s = some (r, [])) :
    readRules true s = some (r, []) := by
  have hmany : many (readRule true) (readLayout s).2.length (readLayout s).2 =
      many (readRule false) (readLayout s).2.length (readLayout s).2 := by
    refine many_extends (P := fun rest => rest = []) ?_ ?_ ?_
    · intro s' r' rest hrule hnext
      refine readRule_extends hrule ?_
      rcases hread : readRule false rest with _ | x
      · rw [hnext hread]
        exact atRule_nil
      · exact atRule_of_readRule hread
    · rintro _ _ rfl
      rfl
    · unfold readRules at h
      split at h
      · cases h
      · next hsome =>
        cases h
        rw [hsome]
  rw [readRules, hmany]
  exact h

/-! ## Trees without numbers -/

theorem recasts_bare (whole : Text) (ids : Part → ExprId) :
    Recasts Node.bare whole whole ids fun _ => 0 where
  nodeAt p n length children := by
    rw [nodeAt, Node.bare, Node.bareAll_eq_map]
    rfl
  moreTerms start stop children := by rw [Node.bare, Node.bareAll_eq_map]
  stop := Node.bare_stop

/-- The numbering shows in the numbers of a tree only. -/
theorem bare_node_rules (whole : Text) (ids : Part → ExprId) (r : RulesSpelling) :
    (r.node whole ids).bare = r.node whole fun _ => 0 := (recasts_bare whole ids).rules r

end Syntax

namespace Grammar

open Syntax Store

/-- A text that the core matches to its end, the grammar of definitions matches to its end
as well, and the trees are alike.  How deep the matches may nest is left open on both sides;
at the depth that a parse has, the grammar of definitions gives this tree or nests too
deep. -/
theorem definitions_extends_core [Platform] [Platform.ReadsTokens] {core : Grammar} {e : ExprId}
    (hcore : Grammar.core = .ok core) (he : core.table.rule "rules".toText = .ok e) {t : Text}
    {depth : Nat} {tree : Node} (hmatch : core.store.matchAt t depth e 0 = .ok (some tree))
    (hstop : tree.stop = t.length) :
    ∃ (definitions : Grammar) (e' : ExprId) (tree' : Node),
      Grammar.definitions = .ok definitions ∧
      definitions.table.rule "rules".toText = .ok e' ∧
      (∃ enough, ∀ depth', enough ≤ depth' →
        definitions.store.matchAt t depth' e' 0 = .ok (some tree')) ∧
      (definitions.parse t (some "rules".toText) 0 = .ok (some tree') ∨
        definitions.parse t (some "rules".toText) 0 = .error .tooDeep) ∧
      tree'.stop = t.length ∧ tree.same tree' = true := by
  obtain ⟨g, hg, hs⟩ := core_speaks
  obtain ⟨definitions, hdefinitions, hs'⟩ := definitions_speaks
  obtain rfl : g = core := Except.ok.inj (hg.symm.trans hcore)
  obtain rfl : coreIds .rules = e := Except.ok.inj ((SpeaksAs.rule_eq hs.2.1).symm.trans he)
  have htree := (derives_rules hs.1).eq_of_matchAt hmatch
  obtain ⟨⟨r, rest⟩, hread, rfl⟩ := Option.map_eq_some_iff.1 htree.symm
  obtain rfl : rest = [] := (stop_eq_length hread).1 hstop
  have hread' := readRules_extends hread
  have hderives : Derives definitions.store t _ 0 _ := derives_rules hs'.1
  have hparse := hs'.parse_rules t
  rw [hread'] at hderives hparse
  obtain ⟨enough, henough⟩ := hderives.matchAt
  refine ⟨definitions, definitionIds .rules, r.node t definitionIds, hdefinitions,
    SpeaksAs.rule_eq hs'.2.1, ⟨enough, fun depth' hle => matchAt_mono hle henough⟩, hparse,
    (stop_eq_length hread').2 rfl, Node.same_of_bare_eq ?_⟩
  rw [bare_node_rules, bare_node_rules]

/-- Two rules that are without parentheses and lookahead, with every other construct. -/
def plainSource : Text := "a = b+ / \"c\" # first\nb = !~\"d\"i a".toText

theorem readRules_plainSource : ∃ r, readRules false plainSource = some (r, []) := by
  have h : ((readRules false plainSource).map Prod.snd) = some [] := by decide +kernel
  obtain ⟨⟨r, rest⟩, hread, rfl⟩ := Option.map_eq_some_iff.1 h
  exact ⟨r, hread⟩

attribute [local instance] Platform.builtIn

theorem definitions_extends_core_plainSource :
    ∃ (core : Grammar) (e : ExprId) (depth : Nat) (tree : Node), Grammar.core = .ok core ∧
      core.table.rule "rules".toText = .ok e ∧
      core.store.matchAt plainSource depth e 0 = .ok (some tree) ∧
      ∃ (definitions : Grammar) (e' : ExprId) (tree' : Node),
        Grammar.definitions = .ok definitions ∧
        definitions.table.rule "rules".toText = .ok e' ∧
        (∃ enough, ∀ depth', enough ≤ depth' →
          definitions.store.matchAt plainSource depth' e' 0 = .ok (some tree')) ∧
        (definitions.parse plainSource (some "rules".toText) 0 = .ok (some tree') ∨
          definitions.parse plainSource (some "rules".toText) 0 = .error .tooDeep) ∧
        tree'.stop = plainSource.length ∧ tree.same tree' = true := by
  obtain ⟨core, hcore, hs⟩ := core_speaks
  obtain ⟨r, hread⟩ := readRules_plainSource
  have hderives : Derives core.store plainSource _ 0 _ := derives_rules hs.1
  rw [hread] at hderives
  obtain ⟨depth, hmatch⟩ := hderives.matchAt
  exact ⟨core, _, depth, _, hcore, SpeaksAs.rule_eq hs.2.1, hmatch,
    definitions_extends_core hcore (SpeaksAs.rule_eq hs.2.1) hmatch ((stop_eq_length hread).2 rfl)⟩

end Grammar

end Pegboard
