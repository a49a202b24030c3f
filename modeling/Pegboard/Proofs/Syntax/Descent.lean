import Pegboard.Proofs.Syntax.Simulation

/-!
# Matching follows the readers, up to the rules

From terms to alternatives, expressions and rules.  An alternative tries several terms before
it tries one, and an expression tries several alternatives before it tries one: what is read
twice is read alike, so the readers read it once.  `derives_rules` is the result: what the
grammar of definitions, or its core, gives for a text is the tree of the spelling that is
read there.
-/

namespace Pegboard.Syntax

open Store

/-! ## The trees of lists -/

section

variable {whole : Text} {ids : Part → ExprId}

theorem node_ofTerms : ∀ (t : Spelling .term) (ts : List (Spelling .term)) (n : Nat),
    (Spelling.ofTerms t ts).node whole ids n =
      nodesFrom (fun t n => t.node whole ids n) Spelling.text n (t :: ts)
  | t, [], n => rfl
  | t, t' :: rest, n => by
    rw [Spelling.ofTerms, Spelling.node, node_ofTerms t' rest]
    rfl

/-- The tree of a branch. -/
def branchAt (whole : Text) (ids : Part → ExprId) (b : Layout × Spelling .terms) (n : Nat) : Node :=
  branchNode whole ids b.1 b.2.text.length n (b.2.node whole ids (n + 1 + (Layout.text b.1).length))

theorem node_ofBranches : ∀ (b : Layout × Spelling .terms) (bs : List (Layout × Spelling .terms))
    (n : Nat), (Spelling.ofBranches b bs).node whole ids n =
      nodesFrom (branchAt whole ids) Spelling.branchText n (b :: bs)
  | (before, terms), [], n => rfl
  | (before, terms), b :: rest, n => by
    have hlength : n + 1 + (Layout.text before).length + terms.text.length =
        n + (Spelling.branchText (before, terms)).length := by
      simp only [Spelling.branchText, List.length_cons, List.length_append]
      omega
    rw [Spelling.ofBranches, Spelling.node, node_ofBranches b rest, hlength]
    rfl

theorem stop_branchAt (b : Layout × Spelling .terms) (n : Nat) :
    (branchAt whole ids b n).stop = (n + (Spelling.branchText b).length : Nat) := by
  simp only [branchAt, branchNode, nodeAt, Spelling.branchText, List.length_cons, List.length_append]
  omega

/-- Where the tree of an alternative's terms ends. -/
theorem stop_termsNode (ts : Spelling .terms) (n : Nat) :
    (termsNode whole ids n ts.text.length (ts.node whole ids n)).stop =
      (n + ts.text.length : Nat) := by
  match ts with
  | .last t => exact stop_term t n
  | .more t (.last t') => rfl
  | .more t (.more t' rest) => rfl

/-- A choice around the tree of an alternative's terms. -/
theorem wrap_termsNode (p : Part) (ts : Spelling .terms) (n : Nat) :
    wrap whole ids p n (termsNode whole ids n ts.text.length (ts.node whole ids n)) =
      nodeAt whole ids p n ts.text.length
        [termsNode whole ids n ts.text.length (ts.node whole ids n)] := by
  rw [wrap, stop_termsNode]
  rfl

end

/-! ## One or more -/

section

variable {full : Bool} {store : Store} {ids : Part → ExprId} (hs : Speaks full store ids)
  {whole : Text} {p : Part} {e : ExprId} (hp : p.isExtra = true → full = true)
  (hform : p.form full ids = .unary (.plus 1) e) {n : Nat}
include hs hp hform

theorem derives_plus_none [Platform] (h : DerivesChain store whole n e []) :
    Derives store whole (ids p) n none :=
  derives_none hs hp (by rw [hform]; exact .plusFail h (by decide))

/-- Things one after the other make a repetition of one or more. -/
theorem derives_plus [Platform] {α : Type} {node : α → Nat → Node} {text : α → Text} {a : α}
    {as : List α} (hstop : ∀ a n, (node a n).stop = (n + (text a).length : Nat))
    (h : DerivesChain store whole n e (nodesFrom node text n (a :: as))) :
    Derives store whole (ids p) n (some (nodeAt whole ids p n ((a :: as).flatMap text).length
      (nodesFrom node text n (a :: as)))) := by
  refine derives_some hs hp ?_
  rw [hform, ← chainStop_nodesFrom hstop]
  refine .plus h ?_
  rw [nodesFrom, List.length_cons]
  omega

end

/-! ## Alternatives -/

section

variable [Platform]
variable {full : Bool} {store : Store} {ids : Part → ExprId} (hs : Speaks full store ids)
  {whole : Text} {inner : Text → Option (Spelling .expression × Text)} {least : Nat}
  (htext : ∀ {s e rest}, inner s = some (e, rest) → s = e.text ++ rest)
  (hinner : ∀ m, least < m → m ≤ whole.length →
    Derives store whole (ids .expression) m ((inner (whole.drop m)).map fun x => x.1.node whole ids m))
include hs htext hinner

/-- Terms one after the other. -/
theorem derivesChain_terms [Platform.ReadsTokens] {n : Nat} (hleast : least ≤ n)
    (hn : n ≤ whole.length) (fuel : Nat) (hfuel : whole.length - n ≤ fuel) :
    DerivesChain store whole n (ids .term) (nodesFrom (fun t n => t.node whole ids n) Spelling.text n
      (many (readTerm full inner) fuel (whole.drop n)).1) :=
  derivesChain_many (fun t n => stop_term t n) (readTerm_text htext) (fun t => t.text_ne_nil)
    (fun _ hleast hn => derives_term hs htext hinner hleast hn rfl) fuel n hleast hn hfuel

/-- A sequence of terms, or else one term, gives what is read as terms. -/
theorem derives_terms [Platform.ReadsTokens] {n : Nat} (hleast : least ≤ n)
    (hn : n ≤ whole.length) :
    ∃ o o', Derives store whole (ids .sequence) n o ∧ Derives store whole (ids .term) n o' ∧
      o.or o' = (readTerms full inner (whole.drop n)).map fun x =>
        termsNode whole ids n x.1.text.length (x.1.node whole ids n) := by
  have hchain := derivesChain_terms hs htext hinner hleast hn (whole.drop n).length (by simp)
  rw [readTerms]
  rcases hmany : many (readTerm full inner) (whole.drop n).length (whole.drop n) with
    ⟨_ | ⟨t, ts⟩, rest⟩
  · have hnone := (many_eq_nil (readTerm_text htext) Spelling.text_ne_nil (Nat.le_refl _) hmany).2
    have hterm := derives_term hs htext hinner hleast hn rfl
    rw [hnone] at hterm
    exact ⟨_, _, derives_sequence_none hs (p := .sequence) nofun rfl hterm, hterm, rfl⟩
  · rw [hmany] at hchain
    cases hchain with
    | more hterm _ hmore =>
      dsimp only at hterm hmore
      rw [stop_term t] at hmore
      cases ts with
      | nil =>
        have hfew : Derives store whole (ids .moreTerms) _ none :=
          derives_plus_none hs (p := .moreTerms) nofun rfl hmore
        exact ⟨_, _, derives_pair_none hs (p := .sequence) nofun rfl hterm (stop_term t n) hfew,
          hterm, rfl⟩
      | cons t' ts =>
        have hrest : Derives store whole (ids .moreTerms) _ _ :=
          derives_plus hs (p := .moreTerms) nofun rfl (fun t n => stop_term t n) hmore
        refine ⟨_, _, derives_pair hs (p := .sequence) nofun rfl hterm (stop_term t n) hrest rfl,
          hterm, ?_⟩
        dsimp only [Option.or_some, Option.some_or, Option.map_some]
        rw [node_ofTerms, Spelling.text_ofTerms]
        simp only [List.flatMap_cons, List.length_append, nodesFrom, termsNode, nodeAt, stop_term, List.head?_cons, Option.map_some,
          Option.getD_some, List.take_succ_cons, List.take_zero, List.drop_succ_cons, List.drop_zero,
          List.cons_append, List.nil_append, Nat.add_assoc]
        rfl

/-- An alternative gives what is read as terms. -/
theorem derives_alternative [Platform.ReadsTokens] {n : Nat} (hleast : least ≤ n)
    (hn : n ≤ whole.length) :
    Derives store whole (ids .alternative) n ((readTerms full inner (whole.drop n)).map fun x =>
      alternativeNode whole ids n x.1.text.length (x.1.node whole ids n)) := by
  obtain ⟨o, o', hsequence, hterm, hor⟩ := derives_terms hs htext hinner hleast hn
  have h := derives_choice hs (p := .alternative) nofun rfl
    (.cons ⟨o, hsequence, rfl⟩ (.cons ⟨o', hterm, rfl⟩ .nil))
  simp only [List.foldr_cons, List.foldr_nil, Option.or_none] at h
  rw [← Option.map_or, hor, Option.map_map] at h
  simp only [Function.comp_def, wrap_termsNode] at h
  exact h

/-! ## Expressions -/

/-- A branch gives what its reader gives. -/
theorem derives_branch [Platform.ReadsTokens] {n : Nat} (hleast : least ≤ n) :
    Derives store whole (ids .orTerm) n
      ((readBranch full inner (whole.drop n)).map fun x => branchAt whole ids x.1 n) := by
  unfold readBranch
  split
  · next s hslash =>
    have hsign : Derives store whole _ n _ := derives_sign hs (p := .slash) nofun rfl hslash
    obtain ⟨hdrop, hle⟩ := drop_cons hslash
    have hlayout : Derives store whole _ _ _ := derives_layout hs hle
    rw [hdrop] at hlayout
    obtain ⟨hdrop', hle'⟩ := drop_text hle (hdrop.trans (readLayout_text s))
    have halternative := derives_alternative hs htext hinner (by omega) hle'
    rw [hdrop'] at halternative
    rcases hread : readTerms full inner (readLayout s).2 with _ | ⟨terms, rest⟩
    · rw [hread] at halternative
      exact derives_sequence_fail hs (p := .orTerm) nofun rfl
        (derivesAll_cons_none hsign (derivesAll_cons_none hlayout (.fail halternative)))
    · rw [hread] at halternative
      refine derives_sequence hs (p := .orTerm) nofun rfl
        (derivesAll_cons hsign (derivesAll_cons hlayout (derivesAll_cons halternative ?_)))
      rw [← Nat.add_assoc, ← Nat.add_assoc]
      exact .nil
  · next hslash =>
    exact derives_sequence_none hs (p := .orTerm) nofun rfl
      (derives_sign_none hs (p := .slash) nofun rfl (ne_head hslash))

/-- An expression gives what its reader gives. -/
theorem derives_choices [Platform.ReadsTokens] {n : Nat} (hleast : least ≤ n)
    (hn : n ≤ whole.length) :
    Derives store whole (ids .expression) n
      ((readChoice full inner (whole.drop n)).map fun x => x.1.node whole ids n) := by
  obtain ⟨o, o', hsequence, hterm, hor⟩ := derives_terms hs htext hinner hleast hn
  have halternative := derives_alternative hs htext hinner hleast hn
  -- Without a branch, the expression is the only alternative.
  have hsingle : ∀ {r}, Offers store whole ids .expression n (ids .ored) r →
      Derives store whole (ids .expression) n (r.or ((readTerms full inner (whole.drop n)).map
        fun x => (Spelling.single x.1).node whole ids n)) := by
    intro r hr
    have h := derives_choice hs (p := .expression) nofun rfl
      (.cons hr (.cons ⟨o, hsequence, rfl⟩ (.cons ⟨o', hterm, rfl⟩ .nil)))
    simp only [List.foldr_cons, List.foldr_nil, Option.or_none] at h
    rw [← Option.map_or, hor, Option.map_map] at h
    simp only [Function.comp_def, wrap_termsNode] at h
    exact h
  rw [readChoice]
  rcases hread : readTerms full inner (whole.drop n) with _ | ⟨terms, s⟩
  · rw [hread] at hsingle halternative
    exact hsingle (.none (derives_sequence_none hs (p := .ored) nofun rfl halternative))
  · rw [hread] at hsingle halternative
    obtain ⟨hdrop, hle⟩ := drop_text hn (readTerms_text htext hread)
    have hchain : DerivesChain store whole (n + terms.text.length : Nat) (ids .orTerm) _ :=
      derivesChain_many (fun b n => stop_branchAt b n) (readBranch_text htext)
        (fun b => List.cons_ne_nil _ _)
        (fun _ hleast hn => derives_branch hs htext hinner hleast) s.length (n + terms.text.length)
        (show least ≤ _ by omega) hle
        (Nat.le_of_eq (by rw [← hdrop, List.length_drop]))
    rw [hdrop] at hchain
    dsimp only
    rcases hmany : many (readBranch full inner) s.length s with ⟨_ | ⟨b, bs⟩, rest⟩
    · rw [hmany] at hchain
      have hnone : Derives store whole _ _ none := derives_plus_none hs (p := .orTerms) nofun rfl hchain
      exact hsingle (.none (derives_pair_none hs (p := .ored) nofun rfl halternative rfl hnone))
    · rw [hmany] at hchain
      have hbranches : Derives store whole _ _ _ :=
        derives_plus hs (p := .orTerms) nofun rfl (fun b n => stop_branchAt b n) hchain
      have h := hsingle (.some (derives_pair hs (p := .ored) nofun rfl halternative rfl hbranches rfl))
      rw [← node_ofBranches, ← Spelling.text_ofBranches] at h
      exact h

end

/-- An expression gives what its reader gives, however deep it is nested. -/
theorem derives_expression [Platform] [Platform.ReadsTokens] {full : Bool} {store : Store}
    {ids : Part → ExprId} (hs : Speaks full store ids) {whole : Text} :
    ∀ (fuel n : Nat), n ≤ whole.length → whole.length - n < fuel →
      Derives store whole (ids .expression) n
        ((readExpression full fuel (whole.drop n)).map fun x => x.1.node whole ids n) := by
  intro fuel
  induction fuel with
  | zero =>
    intro n _ hlt
    exact absurd hlt (Nat.not_lt_zero _)
  | succ fuel ih =>
    intro n hn hlt
    refine derives_choices hs readExpression_text (fun m hm hle => ?_) (Nat.le_refl n) hn
    exact ih m hle (by omega)

/-! ## Rules -/

section

variable {full : Bool} {store : Store} {ids : Part → ExprId} (hs : Speaks full store ids)
  {whole : Text}
include hs

omit hs in
theorem stop_tokenNode (p token : Part) (text : Text) (after : Layout) (n : Nat) :
    (tokenNode whole ids p token text after n).stop =
      (n + text.length + (Layout.text after).length : Nat) := by
  rw [Nat.add_assoc]
  rfl

omit hs in
theorem RuleSpelling.length_text (r : RuleSpelling) :
    r.text.length = r.label.text.length + (Layout.text r.afterLabel).length + 1 +
      (Layout.text r.afterEquals).length + r.body.text.length := by
  simp only [RuleSpelling.text, List.length_append, List.length_cons]
  omega

/-- A rule gives what its reader gives. -/
theorem derives_rule [Platform] [Platform.ReadsTokens] {n : Nat} (hn : n ≤ whole.length) :
    Derives store whole (ids .rule) n
      ((readRule full (whole.drop n)).map fun x => x.1.node whole ids n) := by
  have hlabel : Derives store whole _ n _ := derives_label hs hn
  rw [readRule]
  rcases hread : readLabel (whole.drop n) with _ | ⟨label, s⟩
  · rw [hread] at hlabel
    exact derives_sequence_none hs (p := .rule) nofun rfl hlabel
  · rw [hread] at hlabel
    obtain ⟨hdrop, hle⟩ := drop_text hn (readLabel_text hread)
    obtain ⟨hdrop', hle'⟩ := drop_text hle (hdrop.trans (readLayout_text s))
    have hstop : (tokenNode whole ids .label .labelText label.text (readLayout s).1 n).stop = _ :=
      stop_tokenNode _ _ _ _ _
    dsimp only
    split
    · next rest hequals =>
      have hsign : Derives store whole _ _ _ := derives_equals hs hle' (hdrop'.trans hequals)
      obtain ⟨hdrop₃, hle₃⟩ := drop_cons (hdrop'.trans hequals)
      obtain ⟨hdrop₄, hle₄⟩ := drop_text hle₃ (hdrop₃.trans (readLayout_text rest))
      have hlength := congrArg List.length hdrop₃
      rw [List.length_drop] at hlength
      have hbody := derives_expression hs (rest.length + 1) _ hle₄ (by omega)
      have hstop' : (tokenNode whole ids .equals .equalsSign ['='] (readLayout rest).1
          (n + label.text.length + (Layout.text (readLayout s).1).length)).stop = _ :=
        stop_tokenNode _ _ _ _ _
      rw [List.length_singleton] at hstop'
      rw [hdrop₄, ← hstop'] at hbody
      rw [← hstop] at hsign
      rcases hexpression : readExpression full (rest.length + 1) (readLayout rest).2 with
        _ | ⟨body, rest'⟩
      · rw [hexpression] at hbody
        exact derives_sequence_fail hs (p := .rule) nofun rfl
          (derivesAll_cons_none hlabel (derivesAll_cons_none hsign (.fail hbody)))
      · rw [hexpression] at hbody
        refine derives_sequence hs (p := .rule) nofun rfl
          (derivesAll_cons hlabel (derivesAll_cons hsign (derivesAll_cons hbody ?_)))
        dsimp only
        rw [stop_expression, RuleSpelling.length_text]
        simp only [← Nat.add_assoc]
        exact .nil
    · next hequals =>
      have hnone : Derives store whole _ _ none :=
        derives_equals_none hs (by rw [hdrop']; exact ne_head hequals)
      rw [← hstop] at hnone
      exact derives_sequence_fail hs (p := .rule) nofun rfl
        (derivesAll_cons_none hlabel (.fail hnone))

/-- What the grammar of definitions gives for a text is what is read there. -/
theorem derives_rules [Platform] [Platform.ReadsTokens] :
    Derives store whole (ids .rules) 0 ((readRules full whole).map fun x => x.1.node whole ids) := by
  have hlayout : Derives store whole _ _ _ := derives_layout hs (Nat.zero_le whole.length)
  rw [List.drop_zero] at hlayout
  obtain ⟨hdrop, hle⟩ := drop_text (Nat.zero_le _) (readLayout_text whole)
  rw [Nat.zero_add] at hdrop hle
  have hchain : DerivesChain store whole (Layout.text (readLayout whole).1).length (ids .rule) _ :=
    derivesChain_many (fun r n => show (r.node whole ids n).stop = _ from rfl) readRule_text
      RuleSpelling.text_ne_nil (fun _ _ hn => derives_rule hs hn) (readLayout whole).2.length _
      (Nat.zero_le _) hle (Nat.le_of_eq (by rw [← hdrop, List.length_drop]))
  rw [hdrop] at hchain
  rw [readRules]
  rcases hmany : many (readRule full) (readLayout whole).2.length (readLayout whole).2 with
    ⟨_ | ⟨r, rs⟩, rest⟩
  · rw [hmany] at hchain
    have hnone : Derives store whole _ _ none :=
      derives_plus_none hs (p := .ruleList) nofun rfl hchain
    rw [← Nat.zero_add (Layout.text (readLayout whole).1).length] at hnone
    exact derives_pair_none hs (p := .rules) nofun rfl hlayout rfl hnone
  · rw [hmany] at hchain
    have hrules : Derives store whole _ _ _ :=
      derives_plus hs (p := .ruleList) nofun rfl (fun r n => rfl) hchain
    rw [← Nat.zero_add (Layout.text (readLayout whole).1).length] at hrules
    have h := derives_pair hs (p := .rules) nofun rfl hlayout rfl hrules rfl
    rw [Nat.zero_add] at h
    exact h

end

end Pegboard.Syntax
