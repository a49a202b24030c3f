import Pegboard.Platform
import Pegboard.Regex.CharSet

/-!
# Tokens of the definition language

The definition language has six patterns: labels, quoted texts, flags, quantifiers, blanks
and comments.  Each of them matches in one way only, so its match is a plain scan of the
text.  `Platform.ReadsTokens` says of a platform that it accepts the six patterns and matches
them by these scans.  Whatever is said about reading a definition rests on that alone.
-/

namespace Pegboard

namespace Syntax

open Regex

/-! ## Sets of characters -/

/-- What a label starts with. -/
def labelStart : CharSet := ⟨[.range 97 122, .range 65 90, .code 95], true, false, false⟩

/-- What a label goes on with. -/
def labelRest : CharSet := ⟨[.range 97 122, .range 65 90, .code 95, .range 48 57], true, false, false⟩

/-- White space. -/
def space : CharSet := ⟨[.ofClass .space true], true, false, false⟩

/-- What a comment starts with. -/
def hash : CharSet := ⟨[.code 35], true, false, false⟩

/-- What a comment goes on with. -/
def unbroken : CharSet := ⟨[.code 13, .code 10], false, false, false⟩

/-- The quantifiers. -/
def quantifierSet : CharSet := ⟨[.code 42, .code 43, .code 63], true, false, false⟩

/-- The letters of flags. -/
def flagLetter : CharSet :=
  ⟨[.code 105, .code 108, .code 109, .code 115, .code 117, .code 120, .code 97], true, true, false⟩

/-- The double quote. -/
def quote : CharSet := ⟨[.code 34], true, true, false⟩

/-- The backslash. -/
def backslash : CharSet := ⟨[.code 92], true, true, false⟩

/-- All but the double quote and the backslash. -/
def plain : CharSet := ⟨[.code 34, .code 92], false, true, false⟩

/-- All characters. -/
def anyChar : CharSet := ⟨[], false, false, false⟩

/-! ## Patterns -/

def labelPattern : Pattern := ⟨"[a-zA-Z_][a-zA-Z_0-9]*".toText, {}⟩

def spacesPattern : Pattern := ⟨"\\s+".toText, {}⟩

def commentPattern : Pattern := ⟨"#[^\\r\\n]*".toText, {}⟩

def quantifierPattern : Pattern := ⟨"[*+?]".toText, {}⟩

def flagsPattern : Pattern := ⟨"[ilmsuxa]*".toText, { ignoreCase := true }⟩

def quotedPattern : Pattern :=
  ⟨"\"[^\"\\\\]*(?:\\\\.[^\"\\\\]*)*\"".toText, { ignoreCase := true, dotAll := true }⟩

/-- The patterns of the definition language. -/
def tokenPatterns : List Pattern :=
  [labelPattern, spacesPattern, commentPattern, quantifierPattern, flagsPattern, quotedPattern]

/-! ## Scans -/

/-- How many characters of a set come first. -/
def runLength (set : CharSet) (text : Text) : Nat := (text.takeWhile set.holds).length

/-- One character of a set. -/
def oneLength? (set : CharSet) : Text → Option Nat
  | [] => none
  | c :: _ => if set.holds c then some 1 else none

/-- One character of a set and all that come after it of another set. -/
def headLength? (first rest : CharSet) : Text → Option Nat
  | [] => none
  | c :: text => if first.holds c then some (runLength rest text + 1) else none

/-- All the characters of a set that come first, of which there has to be one. -/
def plusLength? (set : CharSet) (text : Text) : Option Nat :=
  if runLength set text = 0 then none else some (runLength set text)

/-- What stands up to the closing quote, and what is left after that quote.  A backslash
takes the next character with it. -/
def scanBody : Text → Option (Text × Text)
  | [] => none
  | c :: s =>
    if c = '"' then some ([], s)
    else if c = '\\' then
      match s with
      | [] => none
      | d :: s' => (scanBody s').map fun (body, rest) => (c :: d :: body, rest)
    else (scanBody s).map fun (body, rest) => (c :: body, rest)

/-- How many characters there are up to the closing quote and with it. -/
def bodyLength? (s : Text) : Option Nat := (scanBody s).map fun (body, _) => body.length + 1

/-- A quoted text, with its quotes. -/
def quotedLength? : Text → Option Nat
  | [] => none
  | c :: text => if c = '"' then (bodyLength? text).map (· + 1) else none

end Syntax

open Syntax in
/-- The patterns of the definition language are accepted and match by their scans. -/
class Platform.ReadsTokens [Platform] : Prop extends Platform.Bounded where
  /-- The six patterns are accepted. -/
  accepted : ∀ p ∈ tokenPatterns, p.Accepted
  /-- A label goes on as long as it can. -/
  label : ∀ text, labelPattern.matchLength? text = headLength? labelStart labelRest text
  /-- So does white space, -/
  spaces : ∀ text, spacesPattern.matchLength? text = plusLength? space text
  /-- and a comment. -/
  comment : ∀ text, commentPattern.matchLength? text = headLength? hash unbroken text
  /-- A quantifier is one sign. -/
  quantifier : ∀ text, quantifierPattern.matchLength? text = oneLength? quantifierSet text
  /-- There may be no flags. -/
  flags : ∀ text, flagsPattern.matchLength? text = some (runLength flagLetter text)
  /-- A quoted text ends at the first quote that is not escaped. -/
  quoted : ∀ text, quotedPattern.matchLength? text = quotedLength? text

namespace Syntax

open Regex

/-! ## Quotes and backslashes have no case variants -/

/-- A code point is outside both halves of a run of case variants. -/
def Apart (m : Nat) (r : Codepoint.CaseRun) : Prop :=
  (m < r.first ∨ r.last < m) ∧ (m < r.first + r.shift ∨ r.last + r.shift < m)

theorem CaseRun.ne_partner {r : Codepoint.CaseRun} {m n : Nat} (h : Apart m r) : r.partner n ≠ some m := by
  intro hpartner
  simp only [Codepoint.CaseRun.partner, Bool.and_eq_true, decide_eq_true_eq] at hpartner
  obtain ⟨hlow, hhigh⟩ := h
  split at hpartner
  · have := Option.some.inj hpartner
    omega
  · split at hpartner
    · have := Option.some.inj hpartner
      omega
    · cases hpartner

theorem ne_partner {m n : Nat} : ∀ {runs : List Codepoint.CaseRun}, (∀ r ∈ runs, Apart m r) →
    Codepoint.partner runs n ≠ some m
  | [], _ => by simp [Codepoint.partner]
  | r :: rest, h => by
    rw [Codepoint.partner]
    split
    · simp
    · split
      · next m' hm' =>
        intro heq
        rw [heq] at hm'
        exact CaseRun.ne_partner (h r List.mem_cons_self) hm'
      · exact ne_partner fun x hx => h x (List.mem_cons_of_mem r hx)

theorem not_mem_variants {m : Nat} (hclasses : ∀ c ∈ Codepoint.caseClasses, m ∉ c)
    (hruns : ∀ r ∈ Codepoint.caseRuns, Apart m r) (n : Nat) : m ∉ Codepoint.variants n := by
  unfold Codepoint.variants
  split
  · simp
  · split
    · next c hc =>
      intro hmem
      exact hclasses c (List.mem_of_find?_eq_some hc) (List.mem_filter.1 hmem).1
    · rw [Option.mem_toList]
      exact ne_partner hruns

instance (m : Nat) (r : Codepoint.CaseRun) : Decidable (Apart m r) :=
  inferInstanceAs (Decidable (_ ∧ _))

theorem not_mem_variants_quote : ∀ n, 34 ∉ Codepoint.variants n :=
  not_mem_variants (by decide) (by decide +kernel)

theorem not_mem_variants_backslash : ∀ n, 92 ∉ Codepoint.variants n :=
  not_mem_variants (by decide) (by decide +kernel)

@[simp] theorem holds_quote (c : Codepoint) : quote.holds c = decide (c = '"') := by
  have h : 34 ∉ Codepoint.variants c.toNat := not_mem_variants_quote c.toNat
  have heq : (34 = c.toNat) ↔ c = '"' := by rw [eq_comm, ← Codepoint.toNat_inj]; rfl
  simp [CharSet.holds, quote, CharSet.memberHolds, CharSet.spellings, h, heq]

@[simp] theorem holds_backslash (c : Codepoint) : backslash.holds c = decide (c = '\\') := by
  have h : 92 ∉ Codepoint.variants c.toNat := not_mem_variants_backslash c.toNat
  have heq : (92 = c.toNat) ↔ c = '\\' := by rw [eq_comm, ← Codepoint.toNat_inj]; rfl
  simp [CharSet.holds, backslash, CharSet.memberHolds, CharSet.spellings, h, heq]

@[simp] theorem holds_plain (c : Codepoint) : plain.holds c = decide (c ≠ '"' ∧ c ≠ '\\') := by
  have h : 34 ∉ Codepoint.variants c.toNat := not_mem_variants_quote c.toNat
  have h' : 92 ∉ Codepoint.variants c.toNat := not_mem_variants_backslash c.toNat
  have heq : (34 = c.toNat) ↔ c = '"' := by rw [eq_comm, ← Codepoint.toNat_inj]; rfl
  have heq' : (92 = c.toNat) ↔ c = '\\' := by rw [eq_comm, ← Codepoint.toNat_inj]; rfl
  simp [CharSet.holds, plain, CharSet.memberHolds, CharSet.spellings, h, h', heq, heq']

theorem not_plain {c : Codepoint} (hc : plain.holds c ≠ true) : c = '"' ∨ c = '\\' := by
  by_cases hquote : c = '"'
  · exact .inl hquote
  · by_cases hslash : c = '\\'
    · exact .inr hslash
    · simp [hquote, hslash] at hc

@[simp] theorem holds_anyChar (c : Codepoint) : anyChar.holds c = true := rfl

@[simp] theorem holds_hash (c : Codepoint) : hash.holds c = decide (c = '#') := by
  have heq : (35 = c.toNat) ↔ c = '#' := by rw [eq_comm, ← Codepoint.toNat_inj]; rfl
  simp [CharSet.holds, hash, CharSet.memberHolds, CharSet.spellings, heq]

@[simp] theorem holds_quantifierSet (c : Codepoint) :
    quantifierSet.holds c = decide (c = '*' ∨ c = '+' ∨ c = '?') := by
  have hstar : (42 = c.toNat) ↔ c = '*' := by rw [eq_comm, ← Codepoint.toNat_inj]; rfl
  have hplus : (43 = c.toNat) ↔ c = '+' := by rw [eq_comm, ← Codepoint.toNat_inj]; rfl
  have hopt : (63 = c.toNat) ↔ c = '?' := by rw [eq_comm, ← Codepoint.toNat_inj]; rfl
  simp [CharSet.holds, quantifierSet, CharSet.memberHolds, CharSet.spellings, hstar, hplus, hopt]

/-! ## Quoted texts -/

theorem scanBody_quote (s : Text) : scanBody (.char '"' :: s) = some ([], s) := by
  rw [scanBody.eq_def]
  rfl

theorem scanBody_escape (d : Codepoint) (s : Text) : scanBody (.char '\\' :: d :: s) =
    (scanBody s).map fun (body, rest) => (.char '\\' :: d :: body, rest) := by
  rw [scanBody.eq_def]
  rfl

theorem scanBody_plain {c : Codepoint} (hc : plain.holds c = true) (s : Text) :
    scanBody (c :: s) = (scanBody s).map fun (body, rest) => (c :: body, rest) := by
  simp only [holds_plain, decide_eq_true_eq] at hc
  rw [scanBody.eq_def]
  simp only [hc.1, hc.2, if_false]

theorem bodyLength?_some {s body rest : Text} (h : scanBody s = some (body, rest)) :
    bodyLength? s = some (body.length + 1) := by
  rw [bodyLength?, h]
  rfl

theorem bodyLength?_none {s : Text} (h : scanBody s = none) : bodyLength? s = none := by
  rw [bodyLength?, h]
  rfl

end Syntax

end Pegboard
