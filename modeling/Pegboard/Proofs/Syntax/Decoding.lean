import Pegboard.Proofs.Syntax.Phases
import Pegboard.Proofs.Syntax.Quoting

/-!
# Two stages read like one pass

A literal is evaluated in two stages: bare line breaks are written as escapes, and then the
text between the quotes is decoded character by character.  The one-pass reading of
`Literal.Decodes` knows neither the first stage nor the phases of the second.

A value answers a set of strings if it is the only one of them, or an error if there is
none.  Along the body of a quoted text, which is made of single characters and of pairs of
a backslash and a character, decoding answers what every phase leaves open
(`answers_body`).  From the first phase on that is the one-pass reading.
-/

namespace Pegboard

open Syntax

/-! ## Bodies of quoted texts -/

namespace Syntax

/-- A body is made of characters that are neither quotes nor backslashes, and of pairs of a
backslash and any character. -/
theorem closedBody_induction {motive : Text → Prop} (nil : motive [])
    (plain : ∀ (c : Codepoint) body, c ≠ '"' → c ≠ '\\' → ClosedBody body → motive body →
      motive (c :: body))
    (pair : ∀ d body, ClosedBody body → motive body → motive (.char '\\' :: d :: body)) :
    ∀ body, ClosedBody body → motive body
  | [], _ => nil
  | c :: s, h => by
    by_cases hc : Syntax.plain.holds c = true
    · have hs : ClosedBody s := by
        intro rest
        have hrest := h rest
        rw [List.cons_append, scanBody_plain hc] at hrest
        obtain ⟨⟨body, rest'⟩, hscan, heq⟩ := Option.map_eq_some_iff.1 hrest
        cases heq
        exact hscan
      have hc' : c ≠ '"' ∧ c ≠ '\\' := by simpa using hc
      exact plain c s hc'.1 hc'.2 hs (closedBody_induction nil plain pair s hs)
    · rcases not_plain hc with rfl | rfl
      · have hrest := h []
        rw [List.cons_append, scanBody_quote] at hrest
        cases hrest
      · cases s with
        | nil => exact absurd (h []) (by decide)
        | cons d s =>
          have hs : ClosedBody s := by
            intro rest
            have hrest := h rest
            rw [List.cons_append, List.cons_append, scanBody_escape] at hrest
            obtain ⟨⟨body, rest'⟩, hscan, heq⟩ := Option.map_eq_some_iff.1 hrest
            cases heq
            exact hscan
          exact pair d s hs (closedBody_induction nil plain pair s hs)

end Syntax

namespace Literal

variable {names : NameTable} {phase : Phase} {c : Codepoint} {text : Text}

/-! ## Along a body -/

/-- A value is a string that a set holds, the only one, or an error if the set is empty. -/
def Value.Answers (v : Value) (P : Text → Prop) : Prop :=
  v ≠ .foreign ∧ ∀ decoded, v = .string decoded ↔ P decoded

theorem Value.answers_refused {P : Text → Prop} (h : ∀ decoded, ¬ P decoded) : refused.Answers P :=
  ⟨nofun, fun decoded => iff_of_false nofun (h decoded)⟩

theorem Value.answers_string {P : Text → Prop} {decoded : Text}
    (h : ∀ more, P more ↔ more = decoded) :
    (string decoded).Answers P :=
  ⟨nofun, fun more => by rw [h, Value.string.injEq, eq_comm]⟩

/-- A value is refused if it has nothing to answer. -/
theorem Value.Answers.refused_iff {v : Value} {P : Text → Prop} (h : v.Answers P) :
    v = .refused ↔ ¬ ∃ decoded, P decoded := by
  constructor
  · rintro rfl ⟨decoded, hdecoded⟩
    cases (h.2 decoded).2 hdecoded
  · intro hnone
    cases v with
    | string decoded => exact absurd ⟨decoded, (h.2 decoded).1 rfl⟩ hnone
    | refused => rfl
    | foreign => exact absurd rfl h.1

theorem Value.Answers.prepend {v : Value} {P : Text → Prop} (h : v.Answers P) (out : Text) :
    (v.prepend out).Answers fun decoded => ∃ more, decoded = out ++ more ∧ P more := by
  cases v with
  | string decoded =>
    refine answers_string fun more => ?_
    constructor
    · rintro ⟨decoded', rfl, hdecoded'⟩
      rw [Value.string.inj ((h.2 decoded').2 hdecoded')]
    · rintro rfl
      exact ⟨decoded, rfl, (h.2 decoded).1 rfl⟩
  | refused =>
    refine answers_refused ?_
    rintro _ ⟨decoded', -, hdecoded'⟩
    cases (h.2 decoded').2 hdecoded'
  | foreign => exact absurd rfl h.1

/-- If the rest of a text answers every phase that may come next, the text answers a phase.  A
surrogate is refused in every phase, and none leaves it open. -/
theorem answers_cons {rest : Text} (hphase : phase ≠ .closed) (hc : phase = .slash ∨ Bare c)
    (hrest : ∀ out next, charStep names '"' phase c = some (out, next) →
      (decode names '"' next rest).Answers (Opens names next text)) :
    (decode names '"' phase (c :: rest)).Answers (Opens names phase (c :: text)) := by
  have hrefused : step names '"' phase c = none → decode names '"' phase (c :: rest) = .refused := by
    intro hstep
    rw [decode, hstep]
    exact hphase
  by_cases hchar : c.isChar = true
  · have hleads : Opens names phase (c :: text) = Leads names phase c text :=
      funext fun _ => propext (opens_cons hchar hc)
    rw [hleads]
    have hstep' : step names '"' phase c = charStep names '"' phase c := step_of_isChar hchar
    rcases hstep : charStep names '"' phase c with _ | ⟨out, next⟩
    · rw [hrefused (hstep'.trans hstep)]
      exact Value.answers_refused fun _ => not_leads hstep
    · have hleads' : Leads names phase c text =
          fun decoded => ∃ more, decoded = out ++ more ∧ Opens names next text more := by
        refine funext fun decoded => propext ?_
        simp [Leads, hstep]
      rw [decode_cons (hstep'.trans hstep), hleads']
      exact (hrest out next hstep).prepend out
  · rw [hrefused (if_neg hchar)]
    exact Value.answers_refused fun _ hopens => hchar (hopens.allowed c List.mem_cons_self).2

/-- At the closing quote every phase that it may close is answered. -/
theorem answers_end (hphase : phase.Outer) :
    (decode names '"' phase ['"']).Answers (Opens names phase []) := by
  cases phase with
  | plain => exact Value.answers_string fun _ => decodes_nil
  | slash => exact hphase.elim
  | octal left value =>
    have hover : Opens names (.octal left value) [] =
        fun decoded => value ≤ 0xff ∧ decoded = [.ofNat value] := by
      refine funext fun decoded => propext ?_
      rw [opens_octal_over (.inr (by simp))]
      simp [decodes_nil]
    have hdecode : decode names '"' (.octal left value) ['"'] =
        if value ≤ 0xff then .string [.ofNat value] else .refused := by
      rw [decode, step_of_isChar rfl, charStep, octalStep]
      · by_cases hvalue : value ≤ 0xff
        · simp [hvalue, Codepoint.isOctal, plainStep, decode, Value.prepend]
        · simp [hvalue, Codepoint.isOctal]
      · intro h
        cases h
    rw [hover, hdecode]
    split
    · next hvalue => exact Value.answers_string fun _ => and_iff_right hvalue
    · next hvalue => exact Value.answers_refused fun _ h => hvalue h.1
  | hex left value =>
    refine Value.answers_refused ?_
    rintro _ ⟨digits, rest, -, htext, -, hlength, -⟩
    rw [(List.append_eq_nil_iff.1 htext.symm).1, List.length_nil] at hlength
    omega
  | brace =>
    refine Value.answers_refused ?_
    rintro _ ⟨_, _, _, _, ⟨⟩, -⟩
  | name soFar =>
    refine Value.answers_refused ?_
    rintro _ ⟨name, rest, _, _, htext, -⟩
    cases (List.append_eq_nil_iff.1 htext.symm).2
  | closed => exact hphase.elim

/-- A pair of a backslash and a character is answered if the rest is. -/
theorem answers_pair {rest : Text} (hphase : phase.Outer) (d : Codepoint)
    (hrest : ∀ next : Phase, next.Outer → (decode names '"' next rest).Answers (Opens names next text)) :
    (decode names '"' phase (.char '\\' :: d :: rest)).Answers
      (Opens names phase (.char '\\' :: d :: text)) := by
  refine answers_cons hphase.ne_closed (.inr ⟨by decide, by decide, by decide⟩) fun out next hstep => ?_
  have hslash : next = .slash := by
    rcases charStep_cases hphase hstep with ⟨⟨⟩, -⟩ | ⟨-, hnext⟩ | ⟨hne, -⟩
    · exact hnext
    · exact absurd rfl hne
  rw [hslash]
  exact answers_cons nofun (.inl rfl) fun out next hstep => hrest next (slashStep_outer hstep)

/-- The two stages follow the one-pass reading along the body of a quoted text. -/
theorem answers_body {body : Text} (hbody : ClosedBody body) (hphase : phase.Outer) :
    (decode names '"' phase (escapeBreaks body ++ [.char '"'])).Answers (Opens names phase body) := by
  revert phase
  refine closedBody_induction (motive := fun body => ∀ {phase : Phase}, phase.Outer →
    (decode names '"' phase (escapeBreaks body ++ [.char '"'])).Answers (Opens names phase body))
    ?_ ?_ ?_ body hbody
  · exact answers_end
  · intro c body hquote hslash _ ih phase hphase
    by_cases hbreak : ∃ d, IsBreak c d
    · obtain ⟨d, hbreak⟩ := hbreak
      have hescape : escapeBreaks (c :: body) = .char '\\' :: d :: escapeBreaks body := by
        rcases hbreak with ⟨rfl, rfl⟩ | ⟨rfl, rfl⟩ <;> rw [escapeBreaks] <;> simp
      have hopens : Opens names phase (c :: body) = Opens names phase (.char '\\' :: d :: body) :=
        funext fun _ => propext (opens_lineBreak hbreak hphase)
      rw [hescape, hopens]
      exact answers_pair hphase d fun next hnext => ih hnext
    · have hbare : c ≠ '\n' ∧ c ≠ '\r' :=
        ⟨fun hc => hbreak ⟨'n', .inl ⟨hc, rfl⟩⟩, fun hc => hbreak ⟨'r', .inr ⟨hc, rfl⟩⟩⟩
      rw [escapeBreaks_plain ⟨hslash, hbare⟩]
      refine answers_cons hphase.ne_closed (.inr ⟨hquote, hbare⟩) fun out next hstep => ?_
      rcases charStep_cases hphase hstep with ⟨hc, -⟩ | ⟨hc, -⟩ | ⟨-, hnext⟩
      · exact absurd hc hquote
      · exact absurd hc hslash
      · exact ih hnext
  · intro d body _ ih phase hphase
    rw [escapeBreaks_escape]
    exact answers_pair hphase d fun next hnext => ih hnext

/-- The quote that closes a literal is not part of a pair. -/
theorem escapeBreaks_closedBody {body : Text} (hbody : ClosedBody body) (rest : Text) :
    escapeBreaks (body ++ rest) = escapeBreaks body ++ escapeBreaks rest := by
  refine closedBody_induction (motive := fun body =>
    escapeBreaks (body ++ rest) = escapeBreaks body ++ escapeBreaks rest) rfl ?_ ?_ body hbody
  · intro c body _ hslash _ ih
    have hcons : ∀ s : Text, escapeBreaks (c :: s) =
        if c = '\n' then .char '\\' :: .char 'n' :: escapeBreaks s
        else if c = '\r' then .char '\\' :: .char 'r' :: escapeBreaks s else c :: escapeBreaks s := by
      intro s
      rw [escapeBreaks]
      · exact fun h _ => hslash h
      · exact fun _ _ h _ => hslash h
    rw [List.cons_append, hcons, hcons, ih]
    split_ifs <;> rfl
  · intro d body _ ih
    rw [List.cons_append, List.cons_append, escapeBreaks_escape, escapeBreaks_escape, ih]
    rfl

/-! ## The whole literal -/

/-- What a literal comes to is what one pass over its inside gives. -/
structure OnePass (names : NameTable) (inside : Text) (v : Value) : Prop where
  /-- It comes to a string or is refused, and to nothing else. -/
  notForeign : v ≠ .foreign
  /-- The string is that of the one-pass reading. -/
  string_iff : ∀ decoded, v = .string decoded ↔ Decodes names inside decoded
  /-- It is refused for a NUL, for a surrogate or for an escape, and for nothing else. -/
  refused_iff : v = .refused ↔ Faulty names inside
  /-- A line break after an even run of backslashes is kept. -/
  kept : ∀ (pre : Text) (c : Codepoint) post decoded, c = '\n' ∨ c = '\r' →
    inside = pre ++ c :: post → Even (slashRun pre) →
    v = .string decoded → ∃ before after, decoded = before ++ c :: after ∧
      Decodes names pre before ∧ Decodes names post after
  /-- A line break after an odd run of backslashes is left out, and the last of them with it. -/
  removed : ∀ (pre : Text) (c : Codepoint) post decoded, c = '\n' ∨ c = '\r' →
    inside = pre ++ c :: post → ¬ Even (slashRun pre) →
    v = .string decoded → ∃ init before after, pre = init ++ [.char '\\'] ∧ decoded = before ++ after ∧
      Decodes names init before ∧ Decodes names post after

theorem onePass_quoted (names : NameTable) (quoted : Quoted) :
    OnePass names quoted.body (evaluate names quoted.text) := by
  have hevaluate : evaluate names quoted.text =
      decode names '"' .plain (escapeBreaks quoted.body ++ [.char '"']) := by
    rw [evaluate, Quoted.text, escapeBreaks_plain (by decide), escapeBreaks_closedBody quoted.closed]
    rfl
  have hanswers : (evaluate names quoted.text).Answers (Decodes names quoted.body) := by
    rw [hevaluate]
    have houter : Phase.plain.Outer := trivial
    exact answers_body quoted.closed houter
  have hdecodes : ∀ {text decoded}, quoted.body = text → evaluate names quoted.text = .string decoded →
      Decodes names text decoded := by
    rintro _ decoded rfl hstring
    exact (hanswers.2 decoded).1 hstring
  exact {
    notForeign := hanswers.1
    string_iff := hanswers.2
    refused_iff := hanswers.refused_iff.trans not_exists_decodes
    kept := fun _ _ _ _ hc hinside hrun hstring => (hdecodes hinside hstring).kept hc hrun
    removed := fun _ _ _ _ hc hinside hrun hstring => (hdecodes hinside hstring).removed hc hrun }

section

variable [Platform]

/-- A literal that is refused is an error of the definition, and one that comes to a string is a
phrase. -/
theorem literalPhrase_evaluate {child : Node} {q : Text} (hchild : child.text = q) (rest : List Node)
    (start : Int) :
    (evaluate Platform.named? q = .refused →
      Node.literalPhrase (child :: rest) start = .error (.badLiteral q start)) ∧
    ∀ text : Text, evaluate Platform.named? q = .string text →
      Node.literalPhrase (child :: rest) start = .ok (.literal text) := by
  have hwritten : Node.childText (child :: rest) 0 = .ok q := congrArg Except.ok hchild
  rw [Node.literalPhrase, hwritten]
  dsimp only [bind, Except.bind]
  rw [value?]
  constructor
  · intro h
    rw [h]
  · intro text h
    rw [h]
    rfl

variable [Platform.ReadsTokens]

/-- Evaluating a literal in two stages is reading what is between its quotes in one pass.  What
is not a string is an error of the definition. -/
theorem evaluate_onePass {g : Grammar} {q : Text} (hg : Grammar.core = .ok g ∨ Grammar.definitions = .ok g)
    (hq : g.Takes "spaceless_literal".toText q []) :
    q = .char '"' :: (inside q ++ [.char '"']) ∧ (∀ names, OnePass names (inside q) (evaluate names q)) ∧
    ∀ (child : Node) (rest : List Node) (start : Int), child.text = q →
      (evaluate Platform.named? q = .refused →
        Node.literalPhrase (child :: rest) start = .error (.badLiteral q start)) ∧
      ∀ text : Text, evaluate Platform.named? q = .string text →
        Node.literalPhrase (child :: rest) start = .ok (.literal text) := by
  obtain ⟨quoted, rfl⟩ := (Grammar.hasQuoted hg).exists_quoted hq
  rw [inside_quoted]
  exact ⟨rfl, fun names => onePass_quoted names quoted,
    fun child rest start hchild => literalPhrase_evaluate hchild rest start⟩

end

/-- Line breaks after two backslashes, after one and after none, between other escapes. -/
def brokenBody : Text := "\\\\\n\\\r\\1018\r\n\\x41\\\"".toText

theorem closedBody_brokenBody : ClosedBody brokenBody := by
  have hscan : scanBody (brokenBody ++ [.char '"']) = some (brokenBody, []) := by decide +kernel
  exact (scanBody_closed hscan).2

attribute [local instance] Platform.builtIn

/-- The line break after two backslashes is kept, the one after one backslash is not. -/
theorem evaluate_onePass_broken : ∃ g, Grammar.definitions = .ok g ∧
    g.Takes "spaceless_literal".toText (.char '"' :: (brokenBody ++ [.char '"'])) [] ∧
    Decodes Platform.named? brokenBody "\\\nA8\r\nA\"".toText := by
  obtain ⟨g, hg, hquoted⟩ := definitions_hasQuoted
  have htakes := hquoted.takes ⟨brokenBody, closedBody_brokenBody⟩ []
  have hone := (evaluate_onePass (.inr hg) htakes).2.1 Platform.named?
  rw [inside_quoted] at hone
  exact ⟨g, hg, htakes, (hone.string_iff _).1 (by decide)⟩

/-- A surrogate between two quotes. -/
def surrogateToken : Quoted := ⟨[.surrogate 0], by
  have hscan : scanBody [.surrogate 0, .char '"'] = some ([.surrogate 0], []) := by decide +kernel
  exact (scanBody_closed hscan).2⟩

/-- A backslash before a letter outside ASCII, between two quotes. -/
def accentToken : Quoted := ⟨[.char '\\', .char 'é'], by
  have hscan : scanBody [.char '\\', .char 'é', .char '"'] =
    some ([.char '\\', .char 'é'], []) := by decide +kernel
  exact (scanBody_closed hscan).2⟩

/-- A backslash should begin an escape and does not, or it is left as it is. -/
def UnknownEscape (names : NameTable) (text : Text) : Prop :=
  ∃ pre post, text = pre ++ .char '\\' :: post ∧ Even (slashRun pre) ∧
    ∀ out rest, Escape names post out rest → ∃ c, out = [.char '\\', c]

theorem unknownEscape_accentToken (names : NameTable) : UnknownEscape names accentToken.body :=
  ⟨[], [.char 'é'], rfl, by decide, fun _ _ h => ⟨_, (h.other_eq (by decide)).1⟩⟩

/-- A NUL and a bad escape are not all that a literal is refused for: a surrogate is as well.  And
not every backslash before a character of no escape is a bad one: before a letter outside ASCII
both stand for themselves. -/
theorem not_refused_iff_null_or_badEscape : ∃ g, Grammar.definitions = .ok g ∧
    (g.Takes "spaceless_literal".toText surrogateToken.text [] ∧
      ¬ (evaluate Platform.named? surrogateToken.text = .refused ↔
        .char '\x00' ∈ inside surrogateToken.text ∨
          BadEscape Platform.named? (inside surrogateToken.text))) ∧
    g.Takes "spaceless_literal".toText accentToken.text [] ∧
      ¬ (evaluate Platform.named? accentToken.text = .refused ↔
        .char '\x00' ∈ inside accentToken.text ∨
          UnknownEscape Platform.named? (inside accentToken.text)) := by
  obtain ⟨g, hg, hquoted⟩ := definitions_hasQuoted
  refine ⟨g, hg, ⟨hquoted.takes surrogateToken [], fun hiff => ?_⟩,
    hquoted.takes accentToken [], fun hiff => ?_⟩
  · have hrefused : evaluate Platform.named? surrogateToken.text = .refused := by decide
    rcases hiff.1 hrefused with hnull | ⟨pre, post, htext, -, -⟩
    · exact absurd hnull (by decide)
    · have hslash : Codepoint.char '\\' ∈ inside surrogateToken.text :=
        htext ▸ List.mem_append_right pre List.mem_cons_self
      exact absurd hslash (by decide)
  · have hstring : evaluate Platform.named? accentToken.text = .string accentToken.body := by decide
    have hunknown := unknownEscape_accentToken Platform.named?
    rw [← inside_quoted accentToken] at hunknown
    rw [hiff.2 (.inr hunknown)] at hstring
    cases hstring

end Literal

end Pegboard
