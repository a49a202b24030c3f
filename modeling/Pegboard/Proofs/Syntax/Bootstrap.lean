import Pegboard.Proofs.Grammar.Reading
import Pegboard.Proofs.Syntax.Least

/-!
# Both grammars speak the definition language

The core is put together by hand, and the grammar of definitions is what the core makes of
the description of the language.  The core is the same on every platform that reads the
tokens, so it can be computed on the least one, and has the parts of the language in the
places listed here.  So the description is read by descent (`described`), and what is
assembled from it is computed in the same way.
-/

namespace Pegboard.Syntax

/-- Where the parts are in the core. -/
def coreIds : Part → ExprId
  | .comment => 0
  | .spaces => 1
  | .blank => 2
  | .layout => 3
  | .equalsSign => 4
  | .equals => 5
  | .labelText => 6
  | .label => 7
  | .notEquals => 8
  | .reference => 9
  | .quantifierSign => 10
  | .quantifier => 11
  | .quoted => 12
  | .literal => 13
  | .tilde => 14
  | .flags => 15
  | .regex => 16
  | .atom => 17
  | .quantified => 18
  | .term => 19
  | .bang => 20
  | .notTerm => 21
  | .moreTerms => 22
  | .sequence => 23
  | .alternative => 24
  | .slash => 25
  | .orTerm => 26
  | .orTerms => 27
  | .ored => 28
  | .expression => 29
  | .rule => 30
  | .ruleList => 31
  | .rules => 32
  -- The core has no part of these.
  | .lookaheadTerm | .ampersand | .parenthesized | .opening | .closing => 33

/-- Where the parts are in the grammar of definitions. -/
def definitionIds : Part → ExprId
  | .ruleList => 2
  | .rules => 3
  | .rule => 7
  | .equalsSign => 8
  | .equals => 10
  | .literal => 13
  | .quoted => 14
  | .expression => 18
  | .slash => 19
  | .orTerm => 22
  | .orTerms => 25
  | .ored => 26
  | .alternative => 29
  | .moreTerms => 32
  | .sequence => 33
  | .bang => 34
  | .notTerm => 37
  | .ampersand => 38
  | .lookaheadTerm => 41
  | .term => 46
  | .quantified => 49
  | .atom => 54
  | .tilde => 55
  | .flags => 57
  | .regex => 59
  | .opening => 60
  | .closing => 63
  | .parenthesized => 65
  | .quantifierSign => 66
  | .quantifier => 68
  | .notEquals => 71
  | .reference => 72
  | .labelText => 73
  | .label => 75
  | .layout => 77
  | .spaces => 78
  | .blank => 80
  | .comment => 81

/-- Whether there is a value, and it has a property. -/
def succeeds {α : Type} (p : α → Bool) : Except Error α → Bool
  | .ok a => p a
  | .error _ => false

theorem exists_of_succeeds {α : Type} {p : α → Bool} : ∀ {x : Except Error α},
    succeeds p x = true → ∃ a, x = .ok a ∧ p a = true
  | .ok a, h => ⟨a, rfl, h⟩
  | .error _, h => by cases h

variable [Platform] [Platform.ReadsTokens]

/-- A token pattern is put into the core whatever the platform. -/
theorem written_least (name source flags : String) {f : Regex.Flags}
    (hflags : Regex.Flags.ofLetters flags.toText = .ok f)
    (hmem : (⟨source.toText, f⟩ : Regex.Pattern) ∈ tokenPatterns) :
    Build.written name source flags = @Build.written Platform.least name source flags := by
  have hpattern : Regex.Pattern.ofWritten source.toText flags.toText = .ok ⟨source.toText, f⟩ := by
    rw [Regex.Pattern.ofWritten, hflags]
    exact if_pos (Platform.ReadsTokens.accepted _ hmem)
  have hleast : @Regex.Pattern.ofWritten Platform.least source.toText flags.toText =
      .ok ⟨source.toText, f⟩ := by
    unfold Regex.Pattern.ofWritten
    rw [hflags]
    exact if_pos (decide_eq_true hmem)
  unfold Build.written
  rw [hpattern, hleast]

/-- The core is the same on every platform that reads the tokens. -/
theorem core_least : Grammar.core = @Grammar.core Platform.least := by
  rw [Grammar.core, Build.core, written_least "comment" "#[^\\r\\n]*" "" rfl (by decide),
    written_least "" "\\s+" "" rfl (by decide),
    written_least "" "[a-zA-Z_][a-zA-Z_0-9]*" "" rfl (by decide),
    written_least "" "[*+?]" "" rfl (by decide),
    written_least "spaceless_literal" "\"[^\"\\\\]*(?:\\\\.[^\"\\\\]*)*\"" "is" rfl (by decide),
    written_least "" "[ilmsuxa]*" "i" rfl (by decide)]
  rfl

/-- The core speaks the core of the language. -/
theorem core_speaks : ∃ g, Grammar.core = .ok g ∧ SpeaksAs false coreIds g := by
  have h : succeeds (fun g => decide (SpeaksAs false coreIds g)) (@Grammar.core Platform.least) = true := by
    decide +kernel
  rw [core_least]
  obtain ⟨g, hg, hs⟩ := exists_of_succeeds h
  exact ⟨g, hg, of_decide_eq_true hs⟩

/-! ## The description of the language -/

omit [Platform] [Platform.ReadsTokens] in
/-- A line of a text is the list of its characters. -/
theorem ofLines_cons (line : List Char) (lines : List String) :
    Text.ofLines (String.ofList line :: lines) = line.map .char ++ .char '\n' :: Text.ofLines lines := by
  rw [Text.ofLines, List.flatMap_cons, String.toText, String.toList_ofList, List.append_assoc, Text.ofLines]
  rfl

/-- What a definition text stands for, if it is read to its end. -/
def described (full : Bool) (source : Text) : Except Error (List Definition) :=
  match readRules full source with
  | some (r, []) => r.definitions
  | _ => .error .selfDescription

omit [Platform.ReadsTokens] in
theorem described_of_read {full : Bool} {source : Text} {r : RulesSpelling}
    (h : readRules full source = some (r, [])) : described full source = r.definitions := by
  rw [described, h]

omit [Platform.ReadsTokens] in
theorem described_eq_ok {full : Bool} {source : Text} {ds : List Definition}
    (h : described full source = .ok ds) :
    ∃ r, readRules full source = some (r, []) ∧ r.definitions = .ok ds := by
  unfold described at h
  split at h
  · next r hread => exact ⟨r, hread, h⟩
  · cases h

omit [Platform] [Platform.ReadsTokens] in
theorem nesting_ruleSource : nesting ruleSource 0 ≤ 300 := by
  rw [ruleSource]
  repeat rw [ofLines_cons]
  decide +kernel

/-- What a text stands for on the least platform, it stands for on every platform that reads the
tokens. -/
theorem described_of_least {full : Bool} {source : Text} {ds : List Definition}
    (h : @described Platform.least full source = .ok ds) : described full source = .ok ds := by
  obtain ⟨r, hread, hds⟩ := @described_eq_ok Platform.least full source ds h
  rw [described_of_read hread]
  exact RulesSpelling.definitions_le Platform.least_le hds

/-- The grammar of definitions is assembled from what the description of the language stands
for. -/
theorem definitions_eq {ds : List Definition} (h : described false ruleSource = .ok ds) :
    Grammar.definitions = Grammar.ofBuild (Definition.assemble ds) (some "rules".toText) := by
  obtain ⟨core, hcore, hs⟩ := core_speaks
  obtain ⟨r, hread, hds⟩ := described_eq_ok h
  have hparse := hs.parse_rules_of_nesting nesting_ruleSource
  have hstop : (r.node ruleSource coreIds).stop = ruleSource.length := (stop_eq_length hread).2 rfl
  rw [hread, Option.map_some] at hparse
  rw [Grammar.definitions, Grammar.bootstrap, hcore, Except.bind, hparse]
  simp only [if_pos hstop, Grammar.ofTree, toDefinitions_node r (readRules_text hread), hds]

/-- The grammar of definitions speaks the whole language, its rules are parts of it, and each
part with a name is a rule. -/
theorem definitions_rules : ∃ g, Grammar.definitions = .ok g ∧ SpeaksAs true definitionIds g ∧
    g.table.roots ⊆ Part.all.map definitionIds ∧
    ∀ p ∈ Part.all, p.name ≠ [] → g.table.rules.lookup p.name = some (definitionIds p) := by
  have h : succeeds (fun ds => succeeds (fun g => decide (SpeaksAs true definitionIds g ∧
      g.table.roots ⊆ Part.all.map definitionIds ∧
      ∀ p ∈ Part.all, p.name ≠ [] → g.table.rules.lookup p.name = some (definitionIds p)))
      (Grammar.ofBuild (Definition.assemble ds) (some "rules".toText)))
      (@described Platform.least false ruleSource) = true := by
    rw [ruleSource]
    repeat rw [ofLines_cons]
    decide +kernel
  obtain ⟨ds, hds, h⟩ := exists_of_succeeds h
  obtain ⟨g, hg, hs⟩ := exists_of_succeeds h
  exact ⟨g, (definitions_eq (described_of_least hds)).trans hg, of_decide_eq_true hs⟩

theorem definitions_parts : ∃ g, Grammar.definitions = .ok g ∧ SpeaksAs true definitionIds g ∧
    g.table.roots ⊆ Part.all.map definitionIds := by
  obtain ⟨g, hg, hs, hroots, -⟩ := definitions_rules
  exact ⟨g, hg, hs, hroots⟩

theorem definitions_speaks : ∃ g, Grammar.definitions = .ok g ∧ SpeaksAs true definitionIds g := by
  obtain ⟨g, hg, hs, -⟩ := definitions_parts
  exact ⟨g, hg, hs⟩

end Pegboard.Syntax
