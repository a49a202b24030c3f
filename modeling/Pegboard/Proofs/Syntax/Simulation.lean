import Mathlib.Data.List.Forall2
import Pegboard.Proofs.Syntax.Reader
import Pegboard.Proofs.Syntax.Tree

/-!
# Matching follows the readers

In a store that speaks the definition language, every part gives at every offset what its
reader gives: the tree of the spelling that is read, or nothing where nothing is read.  The
proofs go up the language, from the tokens to the rules.  A choice is followed member by
member, so that for each of its members it is shown what the member gives, also where that
is nothing.

Expressions in parentheses are the only recursion.  An inner expression starts later in the
text, so that what is assumed of the inner reader (`hinner`) is about fewer characters.
-/

namespace Pegboard.Syntax

open Store

section

variable {full : Bool} {store : Store} {ids : Part → ExprId} (hs : Speaks full store ids)
  {whole : Text}
include hs

/-! ## One part -/

omit hs in
/-- What is left after a part of the rest, and that it is in the text. -/
theorem drop_text {n : Nat} {text s : Text} (hn : n ≤ whole.length) (h : whole.drop n = text ++ s) :
    whole.drop (n + text.length) = s ∧ n + text.length ≤ whole.length := by
  refine ⟨drop_append h, ?_⟩
  have hlength := congrArg List.length h
  rw [List.length_drop, List.length_append] at hlength
  omega

omit hs in
theorem drop_cons {n : Nat} {c : Codepoint} {s : Text} (h : whole.drop n = c :: s) :
    whole.drop (n + 1) = s ∧ n + 1 ≤ whole.length := by
  have hn : n ≤ whole.length := by
    by_contra hlt
    rw [List.drop_eq_nil_of_le (by omega)] at h
    cases h
  exact drop_text hn (show whole.drop n = [c] ++ s from h)

omit hs in
theorem ne_head {s : Text} {c : Codepoint} (h : ∀ rest, s = c :: rest → False) :
    s.head? ≠ some c := by
  intro hhead
  obtain ⟨rest, hrest⟩ := List.head?_eq_some_iff.1 hhead
  exact h rest hrest

variable [Platform]

/-- A part gives the node of what its form gives. -/
theorem derives_part {p : Part} (hp : p.isExtra = true → full = true) {n : Nat}
    {o : Option (Int × List Node)} (h : DerivesForm store whole n (p.form full ids) o) :
    Derives store whole (ids p) n
      (o.map fun x => ⟨ids p, p.kind, p.name, whole, n, x.1, x.2⟩) := by
  have hnode : nodeOf whole (ids p) ⟨p.name, p.form full ids⟩ n =
      fun x => ⟨ids p, p.kind, p.name, whole, n, x.1, x.2⟩ := by
    funext x
    rw [nodeOf, Cell.kind, Part.form_kind]
  rw [← hnode]
  exact .expr (hs p hp) h

theorem derives_none {p : Part} (hp : p.isExtra = true → full = true) {n : Nat}
    (h : DerivesForm store whole n (p.form full ids) none) : Derives store whole (ids p) n none :=
  derives_part hs hp h

theorem derives_some {p : Part} (hp : p.isExtra = true → full = true) {n length : Nat}
    {children : List Node}
    (h : DerivesForm store whole n (p.form full ids) (some ((n + length : Nat), children))) :
    Derives store whole (ids p) n (some (nodeAt whole ids p n length children)) :=
  derives_part hs hp h

/-- A pattern gives what it matches of the rest of the text. -/
theorem derives_regex {p : Part} {pattern : Regex.Pattern} (hp : p.isExtra = true → full = true)
    (hform : p.form full ids = .regex pattern) (n : Nat) :
    Derives store whole (ids p) n
      ((pattern.matchLength? (whole.drop n)).map fun length => nodeAt whole ids p n length []) := by
  rw [← Text.rest_natCast]
  rcases hlength : pattern.matchLength? (Text.rest whole n) with _ | length
  · exact derives_none hs hp (hform ▸ .regexFail hlength)
  · exact derives_some hs hp (by rw [hform]; exact .regex hlength)

/-- A sign gives a node exactly where it stands. -/
theorem derives_sign {p : Part} {c : Codepoint} (hp : p.isExtra = true → full = true)
    (hform : p.form full ids = .literal [c]) {n : Nat} {s : Text} (h : whole.drop n = c :: s) :
    Derives store whole (ids p) n (some (nodeAt whole ids p n 1 [])) := by
  have hle := (drop_cons h).2
  have hstarts : Text.startsAt whole [c] n = true := by
    rw [Text.startsAt, Text.rest_natCast, h]
    simpa using by omega
  exact derives_some hs hp (by rw [hform]; exact .literal hstarts)

theorem derives_sign_none {p : Part} {c : Codepoint} (hp : p.isExtra = true → full = true)
    (hform : p.form full ids = .literal [c]) {n : Nat} (h : (whole.drop n).head? ≠ some c) :
    Derives store whole (ids p) n none := by
  have hstarts : Text.startsAt whole [c] n = false := by
    rw [Text.startsAt, Text.rest_natCast]
    cases hrest : whole.drop n with
    | nil => rfl
    | cons d s =>
      rw [hrest, List.head?_cons, ne_eq, Option.some.injEq] at h
      simp [List.isPrefixOf, Ne.symm h]
  exact derives_none hs hp (hform ▸ .literalFail hstarts)

theorem derives_sequence_fail {p : Part} {es : List ExprId} (hp : p.isExtra = true → full = true)
    (hform : p.form full ids = .compound .sequence es true) {n : Nat}
    (h : DerivesAll store whole n es none) : Derives store whole (ids p) n none :=
  derives_none hs hp (hform ▸ .sequence h)

/-- A sequence gives nothing if its first member does not. -/
theorem derives_sequence_none {p : Part} {e : ExprId} {es : List ExprId}
    (hp : p.isExtra = true → full = true)
    (hform : p.form full ids = .compound .sequence (e :: es) true) {n : Nat}
    (h : Derives store whole e n none) : Derives store whole (ids p) n none :=
  derives_sequence_fail hs hp hform (.fail h)

omit hs in
theorem derivesAll_cons {pos : Int} {e : ExprId} {es : List ExprId} {node : Node} {nodes : List Node}
    {stop : Int} (h : Derives store whole e pos (some node))
    (hrest : DerivesAll store whole node.stop es (some (nodes, stop))) :
    DerivesAll store whole pos (e :: es) (some (node :: nodes, stop)) := .cons h hrest

omit hs in
theorem derivesAll_cons_none {pos : Int} {e : ExprId} {es : List ExprId} {node : Node}
    (h : Derives store whole e pos (some node)) (hrest : DerivesAll store whole node.stop es none) :
    DerivesAll store whole pos (e :: es) none := .cons h hrest

/-- A sequence gives the node of what its members give. -/
theorem derives_sequence {p : Part} {es : List ExprId} (hp : p.isExtra = true → full = true)
    (hform : p.form full ids = .compound .sequence es true) {n length : Nat} {nodes : List Node}
    (h : DerivesAll store whole n es (some (nodes, (n + length : Nat)))) :
    Derives store whole (ids p) n (some (nodeAt whole ids p n length nodes)) :=
  derives_some hs hp (by rw [hform]; exact .sequence h)

/-- A sequence of two gives the node of what both give. -/
theorem derives_pair {p : Part} {e e' : ExprId} (hp : p.isExtra = true → full = true)
    (hform : p.form full ids = .compound .sequence [e, e'] true) {n k l : Nat} {node node' : Node}
    (h : Derives store whole e n (some node)) (hstop : node.stop = (n + k : Nat))
    (h' : Derives store whole e' (n + k : Nat) (some node')) (hstop' : node'.stop = (n + k + l : Nat)) :
    Derives store whole (ids p) n (some (nodeAt whole ids p n (k + l) [node, node'])) := by
  rw [← hstop] at h'
  refine derives_sequence hs hp hform (derivesAll_cons h (derivesAll_cons h' ?_))
  rw [hstop', ← Nat.add_assoc]
  exact .nil

/-- A sequence of two gives nothing if the second gives nothing after the first. -/
theorem derives_pair_none {p : Part} {e e' : ExprId} (hp : p.isExtra = true → full = true)
    (hform : p.form full ids = .compound .sequence [e, e'] true) {n k : Nat} {node : Node}
    (h : Derives store whole e n (some node)) (hstop : node.stop = (n + k : Nat))
    (h' : Derives store whole e' (n + k : Nat) none) : Derives store whole (ids p) n none := by
  rw [← hstop] at h'
  exact derives_sequence_fail hs hp hform (derivesAll_cons_none h (.fail h'))

/-- What a choice gives if its first member that gives something gives the child. -/
def wrap (whole : Text) (ids : Part → ExprId) (p : Part) (n : Nat) (child : Node) : Node :=
  ⟨ids p, p.kind, p.name, whole, n, child.stop, [child]⟩

omit hs in
theorem derivesFirst_of_forall {n : Nat} {es : List ExprId} {os : List (Option Node)}
    (h : List.Forall₂ (fun e o => Derives store whole e n o) es os) :
    DerivesFirst store whole n es (os.foldr Option.or none) := by
  induction h with
  | nil => exact .nil
  | @cons e o es os ho hos ih =>
    cases o with
    | none => exact .later ho ih
    | some node => exact .first ho

/-- What a member gives is, inside a choice, the node of the choice. -/
def Offers (store : Store) (whole : Text) (ids : Part → ExprId) (p : Part) (n : Nat) (e : ExprId)
    (r : Option Node) : Prop :=
  ∃ o, Derives store whole e n o ∧ r = o.map (wrap whole ids p n)

omit hs in
theorem Offers.none {p : Part} {n : Nat} {e : ExprId} (h : Derives store whole e n none) :
    Offers store whole ids p n e .none := ⟨_, h, rfl⟩

omit hs in
theorem Offers.some {p : Part} {n : Nat} {e : ExprId} {child : Node}
    (h : Derives store whole e n (some child)) :
    Offers store whole ids p n e (some (wrap whole ids p n child)) := ⟨_, h, rfl⟩

/-- A choice gives the first of what its members offer. -/
theorem derives_choice {p : Part} {es : List ExprId} (hp : p.isExtra = true → full = true)
    (hform : p.form full ids = .compound .choice es true) {n : Nat} {rs : List (Option Node)}
    (h : List.Forall₂ (Offers store whole ids p n) es rs) :
    Derives store whole (ids p) n (rs.foldr Option.or none) := by
  obtain ⟨os, hos, hrs⟩ : ∃ os, List.Forall₂ (fun e o => Derives store whole e n o) es os ∧
      rs.foldr Option.or none = (os.foldr Option.or none).map (wrap whole ids p n) := by
    clear hform
    induction h with
    | nil => exact ⟨[], .nil, rfl⟩
    | @cons e r es rs hr hrs ih =>
      obtain ⟨o, ho, rfl⟩ := hr
      obtain ⟨os, hos, heq⟩ := ih
      exact ⟨o :: os, .cons ho hos, by simp only [List.foldr_cons, heq, Option.map_or]⟩
  have hderives := derives_part hs hp (by rw [hform]; exact .choice (derivesFirst_of_forall hos))
  rw [Option.map_map] at hderives
  rw [hrs]
  exact hderives

end

/-! ## Repetitions -/

section

variable {store : Store} {whole : Text} {α : Type} {node : α → Nat → Node} {text : α → Text}

theorem chainStop_cons_cons (pos pos' : Int) (a b : Node) (rest : List Node) :
    chainStop pos (a :: b :: rest) = chainStop pos' (b :: rest) := by
  simp [chainStop, List.getLast?_cons]

/-- Where the trees of things one after the other end. -/
theorem chainStop_nodesFrom (hstop : ∀ a n, (node a n).stop = (n + (text a).length : Nat)) :
    ∀ (as : List α) (n : Nat),
      chainStop n (nodesFrom node text n as) = (n + (as.flatMap text).length : Nat) := by
  intro as
  induction as with
  | nil => intro n; rfl
  | cons a rest ih =>
    intro n
    have ih' := ih (n + (text a).length)
    cases rest with
    | nil => simp [nodesFrom, chainStop, hstop]
    | cons b rest =>
      simp only [nodesFrom] at ih' ⊢
      rw [chainStop_cons_cons _ (n + (text a).length : Nat), ih']
      simp only [List.flatMap_cons, List.length_append, Nat.add_assoc]

/-- A member that gives what a reader gives is repeated as the reader is. -/
theorem derivesChain_many [Platform] {e : ExprId} {step : Text → Option (α × Text)} {least : Nat}
    (hstop : ∀ a n, (node a n).stop = (n + (text a).length : Nat))
    (htext : ∀ {s a rest}, step s = some (a, rest) → s = text a ++ rest)
    (hne : ∀ a, text a ≠ [])
    (hstep : ∀ n, least ≤ n → n ≤ whole.length →
      Derives store whole e n ((step (whole.drop n)).map fun x => node x.1 n)) :
    ∀ (fuel n : Nat), least ≤ n → n ≤ whole.length → whole.length - n ≤ fuel →
      DerivesChain store whole n e (nodesFrom node text n (many step fuel (whole.drop n)).1) := by
  intro fuel
  induction fuel with
  | zero =>
    intro n hleast hn hfuel
    have hnil : whole.drop n = [] := List.drop_eq_nil_of_le (by omega)
    have hnone : step [] = none := by
      rcases hread : step [] with _ | ⟨a, rest⟩
      · rfl
      · exact absurd (List.append_eq_nil_iff.1 (htext hread).symm).1 (hne a)
    have hderives := hstep n hleast hn
    rw [hnil, hnone] at hderives
    exact .fail hderives
  | succ fuel ih =>
    intro n hleast hn hfuel
    have hderives := hstep n hleast hn
    rw [many]
    rcases hread : step (whole.drop n) with _ | ⟨a, rest⟩
    · rw [hread] at hderives
      exact .fail hderives
    · rw [hread] at hderives
      have hlength : 0 < (text a).length := List.length_pos_iff.2 (hne a)
      obtain ⟨hrest, hle⟩ := drop_text hn (htext hread)
      have hmoved : (node a n).stop ≠ n := by
        rw [hstop]
        omega
      have hmore := ih (n + (text a).length) (by omega) hle (by omega)
      rw [hrest, ← hstop] at hmore
      exact .more hderives hmoved hmore

end

/-! ## Tokens -/

variable [Platform] [Platform.ReadsTokens]

theorem matchLength?_label (s : Text) :
    labelPattern.matchLength? s = (readLabel s).map fun x => x.1.text.length := by
  rw [Platform.ReadsTokens.label]
  cases s with
  | nil => rfl
  | cons c s =>
    rw [headLength?, readLabel]
    split <;> rfl

theorem matchLength?_quoted (s : Text) :
    quotedPattern.matchLength? s = (readQuoted s).map fun x => x.1.text.length := by
  rw [Platform.ReadsTokens.quoted]
  cases s with
  | nil => rfl
  | cons c s =>
    rw [readQuoted, quotedLength?]
    split
    · split
      · next hnone =>
        rw [bodyLength?_none hnone]
        rfl
      · next body rest hsome =>
        rw [bodyLength?_some hsome]
        simp [Quoted.text]
    · rfl

theorem matchLength?_flags (s : Text) :
    flagsPattern.matchLength? s = some (readFlags s).1.text.length := Platform.ReadsTokens.flags s

theorem matchLength?_quantifier (s : Text) :
    quantifierPattern.matchLength? s = (readQuantifier s).map fun x => [x.1.symbol].length := by
  rw [Platform.ReadsTokens.quantifier, oneLength?.eq_def, readQuantifier.eq_def]
  split
  · rfl
  · next c s =>
    rw [holds_quantifierSet]
    split
    · next hc => 
      simp only [decide_eq_true_eq] at hc
      rcases hc with rfl | rfl | rfl <;> rfl
    · next hc =>
      simp only [decide_eq_true_eq, not_or] at hc
      split
      · next heq => exact absurd (List.cons.inj heq).1 hc.2.2
      · next heq => exact absurd (List.cons.inj heq).1 hc.1
      · next heq => exact absurd (List.cons.inj heq).1 hc.2.1
      · rfl

section

variable {full : Bool} {store : Store} {ids : Part → ExprId} (hs : Speaks full store ids)
  {whole : Text}
include hs

/-! ## Layout -/

/-- White space and comments are read as blanks. -/
theorem derives_blank (n : Nat) :
    Derives store whole (ids .blank) n
      ((readBlank (whole.drop n)).map fun x => blankNode whole ids x.1 n) := by
  have hspaces : Derives store whole _ n _ := derives_regex hs (p := .spaces) nofun rfl n
  have hcomment : Derives store whole _ n _ := derives_regex hs (p := .comment) nofun rfl n
  have hblank := derives_choice hs (p := .blank) nofun rfl
    (.cons ⟨_, hspaces, rfl⟩ (.cons ⟨_, hcomment, rfl⟩ .nil))
  rw [Platform.ReadsTokens.spaces, Platform.ReadsTokens.comment] at hblank
  generalize whole.drop n = s at hblank ⊢
  cases s with
  | nil => exact hblank
  | cons c s =>
    rw [plusLength?, headLength?, runLength, runLength, List.takeWhile_cons, holds_hash] at hblank
    rw [readBlank]
    by_cases hspace : space.holds c = true
    · rw [if_pos hspace] at hblank
      rw [dif_pos hspace]
      exact hblank
    · rw [if_neg hspace, if_pos (show ([] : Text).length = 0 from rfl)] at hblank
      rw [dif_neg hspace]
      by_cases hc : c = '#'
      · rw [if_pos (by simpa using hc)] at hblank
        rw [if_pos hc]
        exact hblank
      · rw [if_neg (by simpa using hc)] at hblank
        rw [if_neg hc]
        exact hblank

/-- White space and comments are read as layout, of which there is always some. -/
theorem derives_layout {n : Nat} (hn : n ≤ whole.length) :
    Derives store whole (ids .layout) n
      (some (layoutNode whole ids (readLayout (whole.drop n)).1 n)) := by
  have hchain : DerivesChain store whole n (ids .blank) _ :=
    derivesChain_many (fun _ _ => rfl) readBlank_text Blank.text_ne_nil
      (fun m _ _ => derives_blank hs m) (whole.drop n).length n (Nat.zero_le n) hn (by simp)
  have hstop := chainStop_nodesFrom (fun b m => show (blankNode whole ids b m).stop = _ from rfl)
    (readLayout (whole.drop n)).1 n
  refine derives_some hs (p := .layout) nofun ?_
  rw [Layout.text, ← hstop]
  exact .star hchain

/-! ## Tokens with their layout -/

/-- A token with layout after it. -/
theorem derives_token {p token : Part} (hp : p.isExtra = true → full = true)
    (hform : p.form full ids = .compound .sequence [ids token, ids .layout] true) {n : Nat}
    {text s : Text} (hn : n ≤ whole.length) (htext : whole.drop n = text ++ s)
    (htoken : Derives store whole (ids token) n
      (some (nodeAt whole ids token n text.length []))) :
    Derives store whole (ids p) n (some (tokenNode whole ids p token text (readLayout s).1 n)) := by
  obtain ⟨hrest, hle⟩ := drop_text hn htext
  have hlayout : Derives store whole _ _ _ := derives_layout hs hle
  rw [hrest] at hlayout
  exact derives_pair hs hp hform htoken rfl hlayout rfl

/-- Labels are read with their layout. -/
theorem derives_label {n : Nat} (hn : n ≤ whole.length) :
    Derives store whole (ids .label) n ((readLabel (whole.drop n)).map fun x =>
      tokenNode whole ids .label .labelText x.1.text (readLayout x.2).1 n) := by
  have htext : Derives store whole _ n _ := derives_regex hs (p := .labelText) nofun rfl n
  rw [matchLength?_label] at htext
  rcases hread : readLabel (whole.drop n) with _ | ⟨label, s⟩
  · rw [hread] at htext
    exact derives_sequence_none hs (p := .label) nofun rfl htext
  · rw [hread] at htext
    exact derives_token hs (p := .label) nofun rfl hn (readLabel_text hread) htext

/-- An equals sign is read with its layout. -/
theorem derives_equals {n : Nat} (hn : n ≤ whole.length) {s : Text}
    (h : whole.drop n = .char '=' :: s) :
    Derives store whole (ids .equals) n
      (some (tokenNode whole ids .equals .equalsSign ['='] (readLayout s).1 n)) :=
  derives_token hs (p := .equals) nofun rfl hn h (derives_sign hs (p := .equalsSign) nofun rfl h)

omit [Platform.ReadsTokens] in
theorem derives_equals_none {n : Nat} (h : (whole.drop n).head? ≠ some (Codepoint.char '=')) :
    Derives store whole (ids .equals) n none :=
  derives_sequence_none hs (p := .equals) nofun rfl
    (derives_sign_none hs (p := .equalsSign) nofun rfl h)

/-- Quantifiers are read with their layout. -/
theorem derives_quantifier {n : Nat} (hn : n ≤ whole.length) :
    Derives store whole (ids .quantifier) n ((readQuantifier (whole.drop n)).map fun x =>
      tokenNode whole ids .quantifier .quantifierSign [x.1.symbol] (readLayout x.2).1 n) := by
  have hsign : Derives store whole _ n _ := derives_regex hs (p := .quantifierSign) nofun rfl n
  rw [matchLength?_quantifier] at hsign
  rcases hread : readQuantifier (whole.drop n) with _ | ⟨q, s⟩
  · rw [hread] at hsign
    exact derives_sequence_none hs (p := .quantifier) nofun rfl hsign
  · rw [hread] at hsign
    exact derives_token hs (p := .quantifier) nofun rfl hn (readQuantifier_text hread) hsign

theorem derives_quoted (n : Nat) :
    Derives store whole (ids .quoted) n ((readQuoted (whole.drop n)).map fun x =>
      nodeAt whole ids .quoted n x.1.text.length []) := by
  have h : Derives store whole _ n _ := derives_regex hs (p := .quoted) nofun rfl n
  rw [matchLength?_quoted, Option.map_map] at h
  exact h

/-! ## Atoms -/

/-- A reference is offered where one is read. -/
theorem offers_reference {n : Nat} (hn : n ≤ whole.length) :
    Offers store whole ids .atom n (ids .reference)
      ((readReference (whole.drop n)).map fun x => x.1.node whole ids n) := by
  have hlabel : Derives store whole _ n _ := derives_label hs hn
  rw [readReference]
  rcases hread : readLabel (whole.drop n) with _ | ⟨label, s⟩
  · rw [hread] at hlabel
    exact .none (derives_sequence_none hs (p := .reference) nofun rfl hlabel)
  · rw [hread] at hlabel
    have htext : whole.drop n = (label.text ++ Layout.text (readLayout s).1) ++ (readLayout s).2 := by
      rw [List.append_assoc, ← readLayout_text]
      exact readLabel_text hread
    obtain ⟨hrest, hle⟩ := drop_text hn htext
    rw [List.length_append] at hrest hle
    dsimp only
    split
    · next hequals =>
      -- The label belongs to the next rule.
      obtain ⟨s', hs'⟩ : ∃ s', whole.drop (n + (label.text.length +
          (Layout.text (readLayout s).1).length)) = .char '=' :: s' := by
        rw [hrest]
        cases hcons : (readLayout s).2 with
        | nil => rw [hcons] at hequals; cases hequals
        | cons c s' => rw [hcons] at hequals; cases hequals; exact ⟨s', rfl⟩
      have hnot : Derives store whole (ids .notEquals) _ none :=
        derives_none hs (p := .notEquals) nofun (.negationFail (derives_equals hs hle hs'))
      exact .none (derives_sequence_fail hs (p := .reference) nofun rfl
        (derivesAll_cons_none hlabel (.fail hnot)))
    · next hequals =>
      have hnot : Derives store whole (ids .notEquals) _ (some (nodeAt whole ids .notEquals _ 0 [])) :=
        derives_some hs (p := .notEquals) nofun
          (.negation (derives_equals_none hs (by rw [hrest]; exact hequals)))
      exact .some (derives_sequence hs (p := .reference) nofun rfl
        (derivesAll_cons hlabel (derivesAll_cons hnot .nil)))

/-- A literal is offered where one is read. -/
theorem offers_literal {n : Nat} (hn : n ≤ whole.length) :
    Offers store whole ids .atom n (ids .literal)
      ((readLiteral (whole.drop n)).map fun x => x.1.node whole ids n) := by
  have hquoted : Derives store whole _ n _ := derives_quoted hs n
  rw [readLiteral]
  rcases hread : readQuoted (whole.drop n) with _ | ⟨quoted, s⟩
  · rw [hread] at hquoted
    exact .none (derives_sequence_none hs (p := .literal) nofun rfl hquoted)
  · rw [hread] at hquoted
    exact .some (derives_token hs (p := .literal) nofun rfl hn (readQuoted_text hread) hquoted)

/-- A pattern is offered where one is read. -/
theorem offers_regex {n : Nat} :
    Offers store whole ids .atom n (ids .regex)
      ((readRegex (whole.drop n)).map fun x => x.1.node whole ids n) := by
  unfold readRegex
  split
  · next s htilde =>
    have hsign : Derives store whole _ n _ := derives_sign hs (p := .tilde) nofun rfl htilde
    obtain ⟨hdrop, hle⟩ := drop_cons htilde
    have hquoted : Derives store whole _ (n + 1 : Nat) _ := derives_quoted hs (n + 1)
    rw [hdrop] at hquoted
    rcases hread : readQuoted s with _ | ⟨quoted, s'⟩
    · rw [hread] at hquoted
      exact .none (derives_sequence_fail hs (p := .regex) nofun rfl
        (derivesAll_cons_none hsign (.fail hquoted)))
    · rw [hread] at hquoted
      obtain ⟨hdrop', hle'⟩ := drop_text hle (hdrop.trans (readQuoted_text hread))
      have hflags : Derives store whole _ (n + 1 + quoted.text.length : Nat) _ :=
        derives_regex hs (p := .flags) nofun rfl _
      rw [matchLength?_flags, hdrop'] at hflags
      obtain ⟨hdrop'', hle''⟩ := drop_text hle' (hdrop'.trans (readFlags_text s'))
      have hlayout : Derives store whole _ _ _ := derives_layout hs hle''
      rw [hdrop''] at hlayout
      refine .some (derives_sequence hs (p := .regex) nofun rfl (derivesAll_cons hsign
        (derivesAll_cons hquoted (derivesAll_cons hflags (derivesAll_cons hlayout ?_)))))
      rw [← Nat.add_assoc, ← Nat.add_assoc, ← Nat.add_assoc]
      exact .nil
  · next htilde =>
    refine .none (derives_sequence_none hs (p := .regex) nofun rfl
      (derives_sign_none hs (p := .tilde) nofun rfl (ne_head htilde)))

end

/-! ## Expressions inside parentheses -/

section

variable {full : Bool} {store : Store} {ids : Part → ExprId} (hs : Speaks full store ids)
  {whole : Text} {inner : Text → Option (Spelling .expression × Text)} {least : Nat}
  (htext : ∀ {s e rest}, inner s = some (e, rest) → s = e.text ++ rest)
  (hinner : ∀ m, least < m → m ≤ whole.length →
    Derives store whole (ids .expression) m ((inner (whole.drop m)).map fun x => x.1.node whole ids m))

omit hs hinner [Platform] [Platform.ReadsTokens] in
theorem stop_expression (e : Spelling .expression) (n : Nat) :
    (e.node whole ids n).stop = (n + e.text.length : Nat) := by
  match e with
  | .single _ => rfl
  | .choice _ _ => simp only [Spelling.node, Spelling.text, List.length_append]; rfl

include hs htext hinner

/-- An expression in parentheses is offered where one is read. -/
theorem offers_group (hfull : full = true) {n : Nat} (hleast : least ≤ n) :
    Offers store whole ids .atom n (ids .parenthesized)
      ((readGroup inner (whole.drop n)).map fun x => x.1.node whole ids n) := by
  unfold readGroup
  split
  · next s hopening =>
    have hsign : Derives store whole _ n _ :=
      derives_sign hs (p := .opening) (fun _ => hfull) rfl hopening
    obtain ⟨hdrop, hle⟩ := drop_cons hopening
    have hbefore : Derives store whole _ _ _ := derives_layout hs hle
    rw [hdrop] at hbefore
    obtain ⟨hdrop', hle'⟩ := drop_text hle (hdrop.trans (readLayout_text s))
    have hexpression := hinner _ (by omega) hle'
    rw [hdrop'] at hexpression
    split
    · next e rest hread =>
      rw [hread] at hexpression
      obtain ⟨hdrop'', hle''⟩ := drop_text hle' (hdrop'.trans (htext hread))
      have hclosing : Derives store whole _ _ _ :=
        derives_sign hs (p := .closing) (fun _ => hfull) rfl hdrop''
      obtain ⟨hdrop₃, hle₃⟩ := drop_cons hdrop''
      have hafter : Derives store whole _ _ _ := derives_layout hs hle₃
      rw [hdrop₃] at hafter
      rw [← stop_expression e _] at hclosing
      refine .some (derives_sequence hs (p := .parenthesized) (fun _ => hfull) rfl
        (derivesAll_cons hsign (derivesAll_cons hbefore (derivesAll_cons hexpression
          (derivesAll_cons hclosing (derivesAll_cons hafter ?_))))))
      simp only [← Nat.add_assoc]
      exact .nil
    · next hread =>
      refine .none (derives_sequence_fail hs (p := .parenthesized) (fun _ => hfull) rfl
        (derivesAll_cons_none hsign (derivesAll_cons_none hbefore ?_)))
      rcases he : inner (readLayout s).2 with _ | ⟨e, rest⟩
      · rw [he] at hexpression
        exact .fail hexpression
      · rw [he] at hexpression
        obtain ⟨hdrop'', -⟩ := drop_text hle' (hdrop'.trans (htext he))
        refine derivesAll_cons_none hexpression (.fail ?_)
        rw [stop_expression e _]
        refine derives_sign_none hs (p := .closing) (fun _ => hfull) rfl ?_
        rw [hdrop'']
        rintro hhead
        cases rest with
        | nil => cases hhead
        | cons c rest =>
          cases hhead
          exact hread e rest he
  · next hopening =>
    exact .none (derives_sequence_none hs (p := .parenthesized) (fun _ => hfull) rfl
      (derives_sign_none hs (p := .opening) (fun _ => hfull) rfl (ne_head hopening)))

/-- An atom gives what its reader gives. -/
theorem derives_atom {n : Nat} (hleast : least ≤ n) (hn : n ≤ whole.length) :
    Derives store whole (ids .atom) n
      ((readAtom full inner (whole.drop n)).map fun x => x.1.node whole ids n) := by
  simp only [readAtom, Option.map_or]
  have hreference := offers_reference hs hn
  have hliteral := offers_literal hs hn
  have hregex : Offers store whole ids .atom n _ _ := offers_regex hs
  cases hfull : full with
  | false =>
    have h := derives_choice hs (p := .atom) nofun (by rw [hfull]; rfl)
      (.cons hreference (.cons hliteral (.cons hregex .nil)))
    exact h
  | true =>
    have h := derives_choice hs (p := .atom) nofun (by rw [hfull]; rfl)
      (.cons hreference (.cons hliteral (.cons hregex
        (.cons (offers_group hs htext hinner hfull hleast) .nil))))
    simpa only [List.foldr_cons, List.foldr_nil, Option.or_none, if_pos] using h

/-! ## Terms -/

omit hs htext hinner [Platform] [Platform.ReadsTokens] in
/-- No atom starts with an exclamation mark or an ampersand. -/
theorem readAtom_mark {c : Codepoint} (hc : c = '!' ∨ c = '&') (s : Text) :
    readAtom full inner (c :: s) = none := by
  rcases hc with rfl | rfl <;> cases full <;> rfl

omit hs htext hinner [Platform] [Platform.ReadsTokens] in
theorem stop_atom (a : Spelling .atom) (n : Nat) :
    (a.node whole ids n).stop = (n + a.text.length : Nat) := by
  match a with
  | .reference _ _ => simp [Spelling.node, Spelling.text, nodeAt]
  | .literal _ _ => simp [Spelling.node, Spelling.text, nodeAt]
  | .regex _ _ _ =>
    simp only [Spelling.node, Spelling.text, nodeAt, List.length_cons, List.length_append]
    omega
  | .group _ _ _ =>
    simp only [Spelling.node, Spelling.text, nodeAt, List.length_cons, List.length_append]
    omega

omit hs htext hinner [Platform] [Platform.ReadsTokens] in
theorem stop_term (t : Spelling .term) (n : Nat) :
    (t.node whole ids n).stop = (n + t.text.length : Nat) := by
  match t with
  | .negation _ | .lookahead _ =>
    simp only [Spelling.node, Spelling.text, nodeAt, List.length_cons]
    omega
  | .quantified _ _ _ =>
    simp only [Spelling.node, Spelling.text, nodeAt, List.length_cons, List.length_append]
    omega
  | .plain _ => rfl

/-- What an atom and the quantifier after it are offered as. -/
theorem offers_quantified {n : Nat} (hleast : least ≤ n) (hn : n ≤ whole.length) :
    ∃ r r', Offers store whole ids .term n (ids .quantified) r ∧
      Offers store whole ids .term n (ids .atom) r' ∧
      r.or r' = (readQuantified full inner (whole.drop n)).map fun x => x.1.node whole ids n := by
  have hatom := derives_atom hs htext hinner hleast hn
  rw [readQuantified]
  rcases hread : readAtom full inner (whole.drop n) with _ | ⟨atom, s⟩
  · rw [hread] at hatom
    exact ⟨_, _, .none (derives_sequence_none hs (p := .quantified) nofun rfl hatom),
      .none hatom, rfl⟩
  · rw [hread] at hatom
    obtain ⟨hdrop, hle⟩ := drop_text hn (readAtom_text htext hread)
    have hquantifier : Derives store whole _ _ _ := derives_quantifier hs hle
    rw [hdrop] at hquantifier
    dsimp only
    rcases hq : readQuantifier s with _ | ⟨q, rest⟩
    · rw [hq] at hquantifier
      refine ⟨_, _, .none (derives_pair_none hs (p := .quantified) nofun rfl hatom
        (stop_atom atom n) hquantifier), .some hatom, ?_⟩
      exact congrArg some (by rw [wrap, stop_atom]; rfl)
    · rw [hq] at hquantifier
      exact ⟨_, _, .some (derives_pair hs (p := .quantified) nofun rfl hatom (stop_atom atom n)
        hquantifier rfl), .some hatom, rfl⟩

omit hinner in
/-- A term with a mark before it gives what is read after the mark. -/
theorem derives_marked {p m : Part} {c : Codepoint} (hp : p.isExtra = true → full = true)
    (hmark : m.isExtra = true → full = true)
    (hform : p.form full ids = .compound .sequence [ids m, ids .term, ids .layout] true)
    (hsign : m.form full ids = .literal [c]) {n : Nat} {s : Text} (h : whole.drop n = c :: s)
    (hterm : Derives store whole (ids .term) (n + 1 : Nat)
      ((readTerm full inner s).map fun x => x.1.node whole ids (n + 1))) :
    Derives store whole (ids p) n ((readTerm full inner s).map fun x =>
      nodeAt whole ids p n (1 + x.1.text.length) [nodeAt whole ids m n 1 [],
        x.1.node whole ids (n + 1), layoutNode whole ids [] (n + 1 + x.1.text.length)]) := by
  obtain ⟨hdrop, hle⟩ := drop_cons h
  have hfirst : Derives store whole _ n _ := derives_sign hs hmark hsign h
  rcases hread : readTerm full inner s with _ | ⟨member, rest⟩
  · rw [hread] at hterm
    exact derives_sequence_fail hs hp hform (derivesAll_cons_none hfirst (.fail hterm))
  · rw [hread] at hterm
    obtain ⟨hdrop', hle'⟩ := drop_text hle (hdrop.trans (readTerm_text htext hread))
    have hlayout : Derives store whole _ _ _ := derives_layout hs hle'
    rw [hdrop', readLayout_of_none (readBlank_readTerm hread), ← stop_term member] at hlayout
    refine derives_sequence hs hp hform
      (derivesAll_cons hfirst (derivesAll_cons hterm (derivesAll_cons hlayout ?_)))
    rw [← Nat.add_assoc]
    exact .nil

omit htext hinner [Platform.ReadsTokens] in
/-- A term gives the first of what its kinds offer. -/
theorem derives_kinds {n : Nat} {r₁ r₂ r₃ r₄ : Option Node}
    (hnegation : Offers store whole ids .term n (ids .notTerm) r₁)
    (hlookahead : if full = true then Offers store whole ids .term n (ids .lookaheadTerm) r₂
      else r₂ = none)
    (hquantified : Offers store whole ids .term n (ids .quantified) r₃)
    (hatom : Offers store whole ids .term n (ids .atom) r₄) :
    Derives store whole (ids .term) n (r₁.or (r₂.or (r₃.or r₄))) := by
  cases hfull : full with
  | false =>
    rw [hfull, if_neg Bool.false_ne_true] at hlookahead
    have h := derives_choice hs (p := .term) nofun (by rw [hfull]; rfl)
      (.cons hnegation (.cons hquantified (.cons hatom .nil)))
    rw [hlookahead, Option.none_or]
    simpa only [List.foldr_cons, List.foldr_nil, Option.or_none] using h
  | true =>
    rw [hfull, if_pos rfl] at hlookahead
    have h := derives_choice hs (p := .term) nofun (by rw [hfull]; rfl)
      (.cons hnegation (.cons hlookahead (.cons hquantified (.cons hatom .nil))))
    simpa only [List.foldr_cons, List.foldr_nil, Option.or_none] using h

omit htext hinner [Platform.ReadsTokens] in
theorem offers_negation_none {n : Nat} (h : (whole.drop n).head? ≠ some (Codepoint.char '!')) :
    Offers store whole ids .term n (ids .notTerm) none :=
  .none (derives_sequence_none hs (p := .notTerm) nofun rfl
    (derives_sign_none hs (p := .bang) nofun rfl h))

omit htext hinner [Platform.ReadsTokens] in
theorem offers_lookahead_none {n : Nat} (h : (whole.drop n).head? ≠ some (Codepoint.char '&')) :
    if full = true then Offers store whole ids .term n (ids .lookaheadTerm) none
    else (none : Option Node) = none := by
  split
  · next hfull =>
    exact .none (derives_sequence_none hs (p := .lookaheadTerm) (fun _ => hfull) rfl
      (derives_sign_none hs (p := .ampersand) (fun _ => hfull) rfl h))
  · rfl

/-- A term gives what its reader gives. -/
theorem derives_term : ∀ {s : Text} {n : Nat}, least ≤ n → n ≤ whole.length → whole.drop n = s →
    Derives store whole (ids .term) n ((readTerm full inner s).map fun x => x.1.node whole ids n) := by
  intro s
  induction s with
  | nil =>
    intro n hleast hn hnil
    obtain ⟨r, r', hr, hr', hor⟩ := offers_quantified hs htext hinner hleast hn
    have hbang := offers_negation_none hs (show (whole.drop n).head? ≠ some (Codepoint.char '!') by simp [hnil])
    have hampersand :=
      offers_lookahead_none hs (show (whole.drop n).head? ≠ some (Codepoint.char '&') by simp [hnil])
    have h := derives_kinds hs hbang hampersand hr hr'
    have hnone : readQuantified full inner [] = none := by cases full <;> rfl
    rw [hor, hnil, hnone] at h
    exact h
  | cons c s ih =>
    intro n hleast hn hcons
    obtain ⟨r, r', hr, hr', hor⟩ := offers_quantified hs htext hinner hleast hn
    obtain ⟨hdrop, hle⟩ := drop_cons hcons
    have hmember := ih (by omega) hle hdrop
    have hhead : (whole.drop n).head? = some c := by rw [hcons]; rfl
    rw [hcons] at hor
    rw [readTerm]
    split
    · next hc =>
      -- The other kinds offer nothing at a mark, and nor do they at the other mark.
      have hbang : Offers store whole ids .term n (ids .notTerm) _ :=
        ⟨_, derives_marked hs htext (p := .notTerm) (m := .bang) (fun h => absurd h (by decide))
          (fun h => absurd h (by decide)) rfl rfl (hc ▸ hcons) hmember, rfl⟩
      have hampersand := offers_lookahead_none hs
        (show (whole.drop n).head? ≠ some (Codepoint.char '&') by rw [hhead, hc]; decide)
      have h := derives_kinds hs hbang hampersand hr hr'
      rw [hor, readQuantified, readAtom_mark (.inl hc)] at h
      simp only [Option.map_none, Option.or_none, Option.map_map] at h ⊢
      exact h
    · next hbang =>
      have hbang := offers_negation_none hs
        (show (whole.drop n).head? ≠ some (Codepoint.char '!') by rw [hhead]; exact fun h => hbang (Option.some.inj h))
      split
      · next hc =>
        have hnone : readQuantified full inner (c :: s) = none := by
          rw [readQuantified, readAtom_mark (.inr hc)]
        rw [hnone] at hor
        split
        · next hfull =>
          have hampersand : Offers store whole ids .term n (ids .lookaheadTerm) _ :=
            ⟨_, derives_marked hs htext (p := .lookaheadTerm) (fun _ => hfull) (fun _ => hfull) rfl
              rfl (hc ▸ hcons) hmember, rfl⟩
          have h := derives_kinds hs hbang (by rw [if_pos hfull]; exact hampersand) hr hr'
          rw [hor] at h
          simp only [Option.map_none, Option.or_none, Option.none_or, Option.map_map] at h ⊢
          exact h
        · next hfull =>
          have h := derives_kinds hs hbang (by rw [if_neg hfull]) hr hr'
          rw [hor] at h
          exact h
      · next hc =>
        have hampersand := offers_lookahead_none hs
          (show (whole.drop n).head? ≠ some (Codepoint.char '&') by rw [hhead]; exact fun h => hc (Option.some.inj h))
        have h := derives_kinds hs hbang hampersand hr hr'
        rw [hor] at h
        exact h

end

end Pegboard.Syntax
