import Pegboard.Proofs.Grammar.SelfDescription

/-!
# Quoted texts delimit themselves

Literals and patterns are quoted in two ways.  A literal is written with the escapes of
`Literal.writeChar`, a pattern with a backslash before every backslash and every quote.
Both have to be found again by one rule, which knows nothing of either: a quoted text goes
up to the first quote that no backslash takes with it.

The rule matches by the scan `readQuoted` (`HasQuoted.parse`).  So what is left is that
the scan stops at the closing quote, whatever comes next, and that decoding undoes the way
of quoting.  Both grammars of the language have the rule.
-/

namespace Pegboard

open Syntax Store

/-- A rule matches a text at its start and takes the first part of it, no more and no less. -/
def Grammar.Takes [Platform] (g : Grammar) (rule taken rest : Text) : Prop :=
  ∃ n, g.parse (taken ++ rest) (some rule) 0 = .ok (some n) ∧ n.start = 0 ∧ n.stop = taken.length

/-- A grammar has the rule of quoted texts of the definition language. -/
def Grammar.HasQuoted (g : Grammar) : Prop :=
  ∃ e, g.table.rules.lookup "spaceless_literal".toText = some e ∧
    g.store[e]? = some ⟨"spaceless_literal".toText, .regex quotedPattern⟩

theorem core_hasQuoted [Platform] [Platform.ReadsTokens] :
    ∃ g, Grammar.core = .ok g ∧ g.HasQuoted := by
  obtain ⟨g, hg, hs⟩ := core_speaks
  obtain ⟨g', hg', ht⟩ := core_tabulates
  obtain rfl : g = g' := Except.ok.inj (hg.symm.trans hg')
  have hlookup : g.table.rules.lookup Part.quoted.name = some (coreIds .quoted) := by
    rw [ht.1]
    rfl
  exact ⟨g, hg, _, hlookup, hs.1 .quoted nofun⟩

theorem definitions_hasQuoted [Platform] [Platform.ReadsTokens] :
    ∃ g, Grammar.definitions = .ok g ∧ g.HasQuoted := by
  obtain ⟨g, hg, hs, -, hlookup⟩ := definitions_rules
  exact ⟨g, hg, _, hlookup .quoted (Part.mem_all _) (by decide), hs.1 .quoted nofun⟩

namespace Grammar

/-- Both grammars of the language have the rule. -/
theorem hasQuoted [Platform] [Platform.ReadsTokens] {g : Grammar}
    (hg : core = .ok g ∨ definitions = .ok g) : g.HasQuoted := by
  rcases hg with hg | hg
  · obtain ⟨g', hg', hquoted⟩ := core_hasQuoted
    rwa [Except.ok.inj (hg.symm.trans hg')]
  · obtain ⟨g', hg', hquoted⟩ := definitions_hasQuoted
    rwa [Except.ok.inj (hg.symm.trans hg')]

/-- The rule of quoted texts matches by the scan. -/
theorem HasQuoted.parse [Platform] [Platform.ReadsTokens] {g : Grammar} (h : g.HasQuoted) :
    ∃ e, ∀ s : Text,
    g.parse s (some "spaceless_literal".toText) 0 = .ok ((readQuoted s).map fun x =>
      ⟨e, .regex, "spaceless_literal".toText, s, 0, x.1.text.length, []⟩) := by
  obtain ⟨e, hlookup, hcell⟩ := h
  refine ⟨e, fun s => ?_⟩
  have hrest : s.rest 0 = s := rfl
  rw [Grammar.parse, Grammar.parseTo, Option.getD_some, RuleTable.rule, hlookup]
  dsimp only
  rw [depthLimit, matchAt, hcell]
  dsimp only
  rw [hrest, matchLength?_quoted]
  cases readQuoted s with
  | none => rfl
  | some x => simp [Cell.kind, Form.kind]

/-- A quoted text is taken up to its closing quote, whatever comes next. -/
theorem HasQuoted.takes [Platform] [Platform.ReadsTokens] {g : Grammar} (h : g.HasQuoted)
    (quoted : Quoted) (rest : Text) :
    g.Takes "spaceless_literal".toText quoted.text rest := by
  obtain ⟨e, hparse⟩ := h.parse
  rw [Takes, hparse, readQuoted_append]
  exact ⟨_, rfl, rfl, rfl⟩

/-- What is taken as a whole is a quoted text. -/
theorem HasQuoted.exists_quoted [Platform] [Platform.ReadsTokens] {g : Grammar} (h : g.HasQuoted)
    {q : Text} (hq : g.Takes "spaceless_literal".toText q []) :
    ∃ quoted : Quoted, quoted.text = q := by
  obtain ⟨e, hparse⟩ := h.parse
  obtain ⟨n, hn, -, hstop⟩ := hq
  rw [List.append_nil, hparse] at hn
  obtain ⟨⟨quoted, rest⟩, hread, rfl⟩ := Option.map_eq_some_iff.1 (Except.ok.inj hn)
  have htext := readQuoted_text hread
  have hlength := congrArg List.length htext
  rw [List.length_append] at hlength
  have hrest : rest = [] := by
    rw [← List.length_eq_zero_iff]
    have hlength' : quoted.text.length = q.length := Int.ofNat_inj.1 hstop
    omega
  exact ⟨quoted, by rw [htext, hrest, List.append_nil]⟩

end Grammar

namespace Literal

/-- A text as it is written, as a token. -/
def writtenToken (text : Text) : Quoted := ⟨text.flatMap writeChar, closedBody_written text⟩

/-- A pattern as it is written, as a token. -/
def patternToken (pattern : Text) : Quoted := ⟨escape pattern, closedBody_escaped pattern⟩

/-- Escaping the backslashes and after them the quotes is escaping both at once. -/
theorem escape_eq_twice (pattern : Text) :
    escape pattern = (pattern.flatMap fun c : Codepoint => if c = '\\' then "\\\\".toText else [c]).flatMap
      fun c : Codepoint => if c = '"' then "\\\"".toText else [c] := by
  rw [escape, List.flatMap_assoc]
  refine congrArg (List.flatMap · pattern) (funext fun c => ?_)
  by_cases hslash : c = '\\'
  · rw [hslash]
    rfl
  · by_cases hquote : c = '"'
    · rw [hquote]
      rfl
    · simp [hslash, hquote]

end Literal

open Literal in
/-- A grammar takes back what is quoted. -/
structure Grammar.TakesQuoted [Platform] (g : Grammar) : Prop where
  /-- A written literal is taken up to its closing quote, whatever comes next, and decoding it
  gives the text, if the text has no surrogates. -/
  literal : ∀ v rest : Text, g.Takes "spaceless_literal".toText (write v) rest ∧
    (v.NoSurrogate → (∀ names, evaluate names (write v) = .string v) ∧ value? (write v) = some v)
  /-- So is a written pattern, and leaving out its escapes gives the pattern. -/
  pattern : ∀ p rest : Text,
    g.Takes "spaceless_literal".toText (.char '"' :: (escape p ++ [.char '"'])) rest ∧
    unescape (inside (.char '"' :: (escape p ++ [.char '"']))) = p
  /-- Patterns are escaped in two passes, one for each of the characters. -/
  escape : ∀ p : Text, escape p =
    (p.flatMap fun c : Codepoint => if c = '\\' then "\\\\".toText else [c]).flatMap
      fun c : Codepoint => if c = '"' then "\\\"".toText else [c]

open Literal in
theorem Grammar.HasQuoted.takesQuoted [Platform] [Platform.ReadsTokens] {g : Grammar}
    (h : g.HasQuoted) : g.TakesQuoted where
  literal v rest :=
    ⟨h.takes (writtenToken v) rest, fun hv => ⟨fun names => evaluate_write names hv, value?_write hv⟩⟩
  pattern p rest := ⟨h.takes (patternToken p) rest, by
    rw [show .char '"' :: (Literal.escape p ++ [.char '"']) = (patternToken p).text from rfl, inside_quoted]
    exact unescape_escape p⟩
  escape := escape_eq_twice

/-- Both grammars of the definition language take back what is quoted. -/
theorem Grammar.quoting_delimits [Platform] [Platform.ReadsTokens] :
    ∃ core reader, Grammar.core = .ok core ∧
    Grammar.definitions = .ok reader ∧ core.TakesQuoted ∧ reader.TakesQuoted := by
  obtain ⟨core, hcore, hquoted⟩ := core_hasQuoted
  obtain ⟨reader, hreader, hquoted'⟩ := definitions_hasQuoted
  exact ⟨core, reader, hcore, hreader, hquoted.takesQuoted, hquoted'.takesQuoted⟩

attribute [local instance] Platform.builtIn

theorem Grammar.quoting_delimits_builtIn : ∃ core reader, Grammar.core = .ok core ∧
    Grammar.definitions = .ok reader ∧ core.TakesQuoted ∧ reader.TakesQuoted :=
  Grammar.quoting_delimits

end Pegboard
