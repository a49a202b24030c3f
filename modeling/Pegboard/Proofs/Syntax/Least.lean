import Pegboard.Proofs.Syntax.Meaning
import Pegboard.Proofs.Syntax.Token

/-!
# The least platform

What a definition text stands for depends on the platform.  A platform that goes on from
another leaves everything as it is that the other gives a meaning to
(`RulesSpelling.definitions_le`).

Every platform that reads the tokens goes on from one and the same platform, which accepts
the six patterns and nothing else, knows no name and evaluates no expression.  That one is
small enough to compute with, and what is computed holds for all the others.
-/

namespace Pegboard

open Syntax

/-- A platform goes on from another. -/
structure Platform.Le (P Q : Platform) : Prop where
  /-- It accepts every pattern that the other accepts, -/
  accepts : ∀ {source : Text} {flags : Regex.Flags},
    P.accepts source flags = true → Q.accepts source flags = true
  /-- knows every name with the same code point, -/
  named : ∀ {name : Text} {c : Codepoint}, P.named? name = some c → Q.named? name = some c
  /-- and evaluates every expression to the same string. -/
  evaluate : ∀ {written text : Text},
    P.evaluate? written = some text → Q.evaluate? written = some text

/-- The platform that accepts the patterns of the definition language and does nothing else. -/
@[reducible] def Platform.least : Platform where
  accepts source flags := decide ((⟨source, flags⟩ : Regex.Pattern) ∈ tokenPatterns)
  matchLength? _ _ _ := none
  named? _ := none
  evaluate? _ := none

theorem Platform.least_le [Platform] [Platform.ReadsTokens] : Platform.least.Le inferInstance where
  accepts haccepts := Platform.ReadsTokens.accepted _ (of_decide_eq_true haccepts)
  named hname := nomatch hname
  evaluate hvalue := nomatch hvalue

/-! ## Literals -/

namespace Literal

/-- A table of names goes on from another. -/
def NameTable.Le (names names' : NameTable) : Prop :=
  ∀ {name : Text} {c : Codepoint}, names name = some c → names' name = some c

theorem step_le {names names' : NameTable} (hle : names.Le names') {quote c : Codepoint}
    {phase : Phase} {next : Text × Phase} (h : step names quote phase c = some next) :
    step names' quote phase c = some next := by
  unfold step charStep at h ⊢
  split at h
  · next hchar =>
    rw [if_pos hchar]
    cases phase with
    | name soFar =>
      unfold nameStep at h ⊢
      dsimp only at h ⊢
      split at h
      · next hbrace =>
        rw [if_pos hbrace]
        split at h
        · cases h
        · next hname =>
          obtain ⟨d, hd, rfl⟩ := Option.map_eq_some_iff.1 h
          rw [if_neg hname, hle hd]
          rfl
      · next hbrace => rwa [if_neg hbrace]
    | _ => exact h
  · cases h

theorem decode_le {names names' : NameTable} (hle : names.Le names') (quote : Codepoint)
    (phase : Phase) (inside : Text) (h : decode names quote phase inside ≠ .refused) :
    decode names' quote phase inside = decode names quote phase inside := by
  fun_induction decode names quote phase inside with
  | case1 => rfl
  | case2 => rfl
  | case3 => exact absurd rfl h
  | case4 => exact absurd rfl h
  | case5 phase c rest hopen out next hstep ih =>
    have hrest : decode names quote next rest ≠ .refused := by
      intro hrefused
      rw [hrefused] at h
      exact h rfl
    rw [decode, step_le hle hstep]
    · exact congrArg (Value.prepend out) (ih hrest)
    · exact hopen

theorem evaluate_le {names names' : NameTable} (hle : names.Le names') {written : Text}
    (h : evaluate names written ≠ .refused) : evaluate names' written = evaluate names written := by
  unfold evaluate at h ⊢
  split at h
  · exact decode_le hle _ _ _ h
  · exact decode_le hle _ _ _ h
  · rfl

theorem value?_le {P Q : Platform} (hle : P.Le Q) {written text : Text}
    (h : @value? P written = some text) : @value? Q written = some text := by
  have hnames : NameTable.Le P.named? Q.named? := hle.named
  unfold value? at h ⊢
  split at h
  · next hvalue =>
    cases h
    rw [evaluate_le hnames (by rw [hvalue]; nofun), hvalue]
  · cases h
  · next hvalue =>
    rw [evaluate_le hnames (by rw [hvalue]; nofun), hvalue]
    exact hle.evaluate h

end Literal

/-! ## Definition texts -/

theorem Regex.Pattern.ofWritten_le {P Q : Platform} (hle : P.Le Q) {source written : Text}
    {p : Regex.Pattern} (h : @ofWritten P source written = .ok p) :
    @ofWritten Q source written = .ok p := by
  unfold ofWritten at h ⊢
  split at h
  · cases h
  · split at h
    · next haccepts =>
      rw [if_pos (hle.accepts haccepts)]
      exact h
    · cases h

namespace Syntax

theorem Quoted.regexPhrase_le {P Q : Platform} (hle : P.Le Q) {q : Quoted} {flags : FlagText}
    {p : Phrase} (h : (@Quoted.regexPhrase P q flags).toOption = some p) :
    (@Quoted.regexPhrase Q q flags).toOption = some p := by
  unfold Quoted.regexPhrase at h ⊢
  rcases hpattern : @Regex.Pattern.ofWritten P (Literal.unescape q.body) flags.text with err | pattern
  · rw [hpattern] at h
    cases h
  · rw [hpattern] at h
    rw [Regex.Pattern.ofWritten_le hle hpattern]
    exact h

theorem Spelling.meaning?_le {P Q : Platform} (hle : P.Le Q) :
    {r : Rank} → (c : Spelling r) → {m : Meaning r} →
    @Spelling.meaning? P r c = some m → @Spelling.meaning? Q r c = some m
  | _, reference _ _, _, h => h
  | _, literal quoted _, _, h => by
    obtain ⟨text, hvalue, rfl⟩ := Option.map_eq_some_iff.1 h
    rw [meaning?, Literal.value?_le hle hvalue]
    rfl
  | _, regex quoted flags _, _, h => Quoted.regexPhrase_le hle h
  | _, group _ inner _, _, h => meaning?_le hle inner h
  | _, negation member, _, h => by
    obtain ⟨p, hp, rfl⟩ := Option.map_eq_some_iff.1 h
    rw [meaning?, meaning?_le hle member hp]
    rfl
  | _, lookahead member, _, h => by
    obtain ⟨p, hp, rfl⟩ := Option.map_eq_some_iff.1 h
    rw [meaning?, meaning?_le hle member hp]
    rfl
  | _, quantified member _ _, _, h => by
    obtain ⟨p, hp, rfl⟩ := Option.map_eq_some_iff.1 h
    rw [meaning?, meaning?_le hle member hp]
    rfl
  | _, plain atom, _, h => meaning?_le hle atom h
  | _, last term, _, h => by
    obtain ⟨p, hp, rfl⟩ := Option.map_eq_some_iff.1 h
    rw [meaning?, meaning?_le hle term hp]
    rfl
  | _, more term rest, _, h => by
    obtain ⟨p, hp, hrest⟩ := Option.bind_eq_some_iff.1 h
    obtain ⟨ps, hps, rfl⟩ := Option.map_eq_some_iff.1 hrest
    rw [meaning?, meaning?_le hle term hp, Option.bind_some, meaning?_le hle rest hps]
    rfl
  | _, lastBranch _ terms, _, h => by
    obtain ⟨ps, hps, rfl⟩ := Option.map_eq_some_iff.1 h
    rw [meaning?, meaning?_le hle terms hps]
    rfl
  | _, moreBranches _ terms rest, _, h => by
    obtain ⟨ps, hps, hrest⟩ := Option.bind_eq_some_iff.1 h
    obtain ⟨qs, hqs, rfl⟩ := Option.map_eq_some_iff.1 hrest
    rw [meaning?, meaning?_le hle terms hps, Option.bind_some, meaning?_le hle rest hqs]
    rfl
  | _, single terms, _, h => by
    obtain ⟨ps, hps, rfl⟩ := Option.map_eq_some_iff.1 h
    rw [meaning?, meaning?_le hle terms hps]
    rfl
  | _, choice first rest, _, h => by
    obtain ⟨ps, hps, hrest⟩ := Option.bind_eq_some_iff.1 h
    obtain ⟨qs, hqs, rfl⟩ := Option.map_eq_some_iff.1 hrest
    rw [meaning?, meaning?_le hle first hps, Option.bind_some, meaning?_le hle rest hqs]
    rfl

theorem RuleSpelling.meaning?_le {P Q : Platform} (hle : P.Le Q) {r : RuleSpelling} {d : Definition}
    (h : @RuleSpelling.meaning? P r = some d) : @RuleSpelling.meaning? Q r = some d := by
  obtain ⟨p, hp, rfl⟩ := Option.map_eq_some_iff.1 h
  rw [meaning?, Spelling.meaning?_le hle r.body hp]
  rfl

/-- What a definition text stands for, it stands for on every platform that goes on. -/
theorem RulesSpelling.definitions_le {P Q : Platform} (hle : P.Le Q) {r : RulesSpelling}
    {ds : List Definition} (h : @RulesSpelling.definitions P r = .ok ds) :
    @RulesSpelling.definitions Q r = .ok ds := by
  obtain ⟨hmeaning, hlabels⟩ := (@definitions_eq_ok P r ds).1 h
  refine definitions_eq_ok.2 ⟨?_, hlabels⟩
  rw [← hmeaning]
  refine List.map_congr_left fun rule hrule => ?_
  have hmem : @RuleSpelling.meaning? P rule ∈ ds.map some := hmeaning ▸ List.mem_map_of_mem hrule
  obtain ⟨d, -, hd⟩ := List.mem_map.1 hmem
  rw [← hd]
  exact RuleSpelling.meaning?_le hle hd.symm

end Syntax

end Pegboard
