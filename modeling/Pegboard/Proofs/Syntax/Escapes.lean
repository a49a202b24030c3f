import Mathlib.Algebra.Group.Nat.Even
import Mathlib.Data.List.DropRight
import Pegboard.Definition.Literal
import Pegboard.Proofs.Text.Quoted

/-!
# The one-pass reading of a literal

What is between the quotes of a literal can be read in one pass from left to right, with
line breaks in it.  A backslash takes an escape with it (`Escape`), and every other
character stands for itself (`Decodes`).  This is a grammar and not a procedure: it has no
first stage that writes line breaks differently, and nothing is left open between
characters.

Only the first character of an escape can be a backslash or a line break.  So the count of
the backslashes before a place, whether it is even, tells whether the place is between
escapes (`Decodes.split`).  There a line break stands for itself, and a backslash begins an
escape.  If all those backslashes do, and there is no NUL, the literal can be read
(`exists_decodes`).
-/

namespace Pegboard.Literal

/-! ## Escapes -/

/-- The escapes of one letter with the characters that they stand for. -/
def letterEscapes : List (Codepoint × Codepoint) :=
  [('\\', '\\'), ('\'', '\''), ('"', '"'), ('a', '\x07'), ('b', '\x08'), ('f', '\x0c'), ('n', '\n'),
   ('r', '\r'), ('t', '\t'), ('v', '\x0b')]

/-- The letters before hexadecimal digits, with the number of digits. -/
def numberMarks : List (Codepoint × Nat) := [('x', 2), ('u', 4), ('U', 8)]

/-- The text after a backslash begins with an escape: the text that it stands for, and the
rest. -/
inductive Escape (names : NameTable) : Text → Text → Text → Prop
  /-- A line break is hidden. -/
  | lineBreak {c : Codepoint} {rest : Text} : c = '\n' ∨ c = '\r' → Escape names (c :: rest) [] rest
  | letter {c d : Codepoint} {rest : Text} :
    (c, d) ∈ letterEscapes → Escape names (c :: rest) [d] rest
  /-- One to three octal digits, as many as there are. -/
  | octal {d : Codepoint} {more rest : Text} :
    (∀ e ∈ d :: more, e.isOctal = true) →
    more.length ≤ 2 → (more.length = 2 ∨ ∀ e ∈ rest.head?, e.isOctal = false) →
    Text.octalNumber (d :: more) ≤ 0xff →
    Escape names (d :: (more ++ rest)) [.ofNat (Text.octalNumber (d :: more))] rest
  /-- A fixed number of hexadecimal digits. -/
  | number {mark : Codepoint} {width : Nat} {digits rest : Text} :
    (mark, width) ∈ numberMarks → digits.length = width → (∀ e ∈ digits, e.hexValue?.isSome) →
    Text.hexNumber digits ≤ 0x10ffff →
    Escape names (mark :: (digits ++ rest)) [.ofNat (Text.hexNumber digits)] rest
  /-- The name of a character. -/
  | name {name rest : Text} {d : Codepoint} :
    name ≠ [] → (∀ e ∈ name, isNameChar e = true) → names name = some d →
    Escape names (.char 'N' :: .char '{' :: (name ++ .char '}' :: rest)) [d] rest
  /-- Before a character outside ASCII the backslash stands for itself. -/
  | other {c : Codepoint} {rest : Text} :
    0x80 ≤ c.toNat → c.isChar = true → Escape names (c :: rest) ['\\', c] rest

/-- Whether a code point may be in a literal at all: neither a NUL nor a surrogate may. -/
def Allowed (c : Codepoint) : Prop := c ≠ '\x00' ∧ c.isChar = true

instance (c : Codepoint) : Decidable (Allowed c) := inferInstanceAs (Decidable (_ ∧ _))

/-- What is between the quotes of a literal stands for a text. -/
inductive Decodes (names : NameTable) : Text → Text → Prop
  | nil : Decodes names [] []
  | plain {c : Codepoint} {text more : Text} :
    c ≠ '\\' → Allowed c → Decodes names text more → Decodes names (c :: text) (c :: more)
  | escape {text rest out more : Text} :
    Escape names text out rest → Decodes names rest more → Decodes names (.char '\\' :: text) (out ++ more)

/-- Whether a character may be inside an escape, after its first one. -/
def InEscape (c : Codepoint) : Prop := c ≠ '\\' ∧ c ≠ '\n' ∧ c ≠ '\r' ∧ Allowed c

instance (c : Codepoint) : Decidable (InEscape c) := inferInstanceAs (Decidable (_ ∧ _))

variable {names : NameTable} {text pre post rest decoded out : Text} {c : Codepoint}

theorem isChar_of_toNat (h : c.toNat < 0xd800) : c.isChar = true := by
  cases c with
  | char => rfl
  | surrogate => exact absurd h (by simp [Codepoint.toNat])

theorem isChar_of_isOctal (h : c.isOctal = true) : c.isChar = true := by
  refine isChar_of_toNat ?_
  simp only [Codepoint.isOctal, Bool.and_eq_true, decide_eq_true_eq] at h
  omega

theorem isChar_of_hexValue? (h : c.hexValue?.isSome) : c.isChar = true := by
  cases c with
  | char => rfl
  | surrogate index =>
    have hlower : ¬ 0xd800 + index.val ≤ 0x66 := by omega
    have hupper : ¬ 0xd800 + index.val ≤ 0x46 := by omega
    simp [Codepoint.hexValue?, Codepoint.isAsciiDigit, Codepoint.toNat, hlower, hupper] at h

theorem isChar_of_isNameChar (h : isNameChar c = true) : c.isChar = true := by
  cases c with
  | char => rfl
  | surrogate => cases h

theorem allowed_of_lineBreak (h : c = '\n' ∨ c = '\r') : Allowed c := by
  rcases h with rfl | rfl <;> decide

theorem inEscape_of_isOctal (h : c.isOctal = true) : InEscape c := by
  refine ⟨?_, ?_, ?_, ?_, isChar_of_isOctal h⟩ <;> rintro rfl <;> cases h

theorem inEscape_of_hexValue? (h : c.hexValue?.isSome) : InEscape c := by
  refine ⟨?_, ?_, ?_, ?_, isChar_of_hexValue? h⟩ <;> rintro rfl <;> cases h

theorem inEscape_of_isNameChar (h : isNameChar c = true) : InEscape c := by
  refine ⟨?_, ?_, ?_, ?_, isChar_of_isNameChar h⟩ <;> rintro rfl <;> cases h

/-- How an escape is spelt, and that it does not look further than the character after it. -/
theorem Escape.spelling (h : Escape names text out rest) : ∃ c body, text = c :: (body ++ rest) ∧
    Allowed c ∧ (∀ d ∈ body, InEscape d) ∧
    ∀ rest', (∀ d ∈ rest'.head?, d ∈ rest.head?) → Escape names (c :: (body ++ rest')) out rest' := by
  cases h with
  | @lineBreak c rest hc =>
    exact ⟨c, [], rfl, allowed_of_lineBreak hc, nofun, fun _ _ => .lineBreak hc⟩
  | @letter c d rest hc =>
    have hall : ∀ p ∈ letterEscapes, Allowed p.1 := by decide
    exact ⟨c, [], rfl, hall _ hc, nofun, fun _ _ => .letter hc⟩
  | @octal d more rest hdigits hlength hlast hvalue =>
    refine ⟨d, more, rfl, (inEscape_of_isOctal (hdigits d List.mem_cons_self)).2.2.2,
      fun e he => inEscape_of_isOctal (hdigits e (List.mem_cons_of_mem d he)), fun rest' hrest => ?_⟩
    exact .octal hdigits hlength (hlast.imp_right fun hlast e he => hlast e (hrest e he)) hvalue
  | @number mark width digits rest hmark hlength hdigits hvalue =>
    have hall : ∀ p ∈ numberMarks, Allowed p.1 := by decide
    exact ⟨mark, digits, rfl, hall _ hmark, fun e he => inEscape_of_hexValue? (hdigits e he),
      fun _ _ => .number hmark hlength hdigits hvalue⟩
  | @name name rest d hne hname hcode =>
    refine ⟨'N', .char '{' :: (name ++ [.char '}']), by simp, by decide, ?_, fun rest' _ => ?_⟩
    · intro e he
      rw [List.mem_cons, List.mem_append, List.mem_singleton] at he
      rcases he with rfl | he | rfl
      · decide
      · exact inEscape_of_isNameChar (hname e he)
      · decide
    · rw [List.cons_append, List.append_assoc, List.singleton_append]
      exact .name hne hname hcode
  | @other c rest hc hchar =>
    refine ⟨c, [], rfl, ⟨?_, hchar⟩, nofun, fun _ _ => .other hc hchar⟩
    rintro rfl
    exact absurd hc (by decide)

/-- An escape that begins with a line break is the line break. -/
theorem Escape.lineBreak_eq (hc : c = '\n' ∨ c = '\r') (h : Escape names (c :: text) out rest) :
    out = [] ∧ rest = text := by
  cases h with
  | lineBreak => exact ⟨rfl, rfl⟩
  | letter hletter => rcases hc with rfl | rfl <;> simp [letterEscapes] at hletter
  | octal hdigits =>
    have hdigit := inEscape_of_isOctal (hdigits c List.mem_cons_self)
    exact absurd hc (not_or.2 ⟨hdigit.2.1, hdigit.2.2.1⟩)
  | number hmark => rcases hc with rfl | rfl <;> simp [numberMarks] at hmark
  | name => rcases hc with hc | hc <;> cases hc
  | other hother => rcases hc with rfl | rfl <;> exact absurd hother (by decide)

/-- Before a character outside ASCII a backslash stands for itself. -/
theorem Escape.other_eq (hc : 0x80 ≤ c.toNat) (h : Escape names (c :: text) out rest) :
    out = [.char '\\', c] ∧ rest = text := by
  cases h with
  | lineBreak hbreak => rcases hbreak with rfl | rfl <;> exact absurd hc (by decide)
  | @letter _ d _ hletter =>
    have hall : ∀ p ∈ letterEscapes, p.1.toNat < 0x80 := by decide
    exact absurd hc (Nat.not_le.2 (hall _ hletter))
  | octal hdigits =>
    have hdigit := hdigits c List.mem_cons_self
    simp only [Codepoint.isOctal, Bool.and_eq_true, decide_eq_true_eq] at hdigit
    omega
  | number hmark =>
    have hall : ∀ p ∈ numberMarks, p.1.toNat < 0x80 := by decide
    exact absurd hc (Nat.not_le.2 (hall _ hmark))
  | name => exact absurd hc (by decide)
  | other => exact ⟨rfl, rfl⟩

theorem decodes_nil : Decodes names [] decoded ↔ decoded = [] := by
  constructor
  · rintro ⟨⟩
    rfl
  · rintro rfl
    exact .nil

theorem decodes_plain (hc : c ≠ '\\') : Decodes names (c :: text) decoded ↔
    Allowed c ∧ ∃ more, decoded = c :: more ∧ Decodes names text more := by
  constructor
  · intro h
    cases h with
    | plain _ hallowed htext => exact ⟨hallowed, _, rfl, htext⟩
    | escape => exact absurd rfl hc
  · rintro ⟨hallowed, more, rfl, htext⟩
    exact .plain hc hallowed htext

theorem decodes_slash : Decodes names (.char '\\' :: text) decoded ↔
    ∃ out rest more, Escape names text out rest ∧ decoded = out ++ more ∧ Decodes names rest more := by
  constructor
  · intro h
    cases h with
    | plain hc => exact absurd rfl hc
    | escape hescape hrest => exact ⟨_, _, _, hescape, rfl, hrest⟩
  · rintro ⟨out, rest, more, hescape, rfl, hrest⟩
    exact .escape hescape hrest

/-- There is neither a NUL nor a surrogate in what can be read. -/
theorem Decodes.allowed (h : Decodes names text decoded) : ∀ c ∈ text, Allowed c := by
  induction h with
  | nil => exact nofun
  | plain _ hallowed _ ih => exact List.forall_mem_cons.2 ⟨hallowed, ih⟩
  | escape hescape _ ih =>
    obtain ⟨c, body, rfl, hc, hbody, -⟩ := hescape.spelling
    refine List.forall_mem_cons.2 ⟨by decide, List.forall_mem_cons.2 ⟨hc, ?_⟩⟩
    exact List.forall_mem_append.2 ⟨fun d hd => (hbody d hd).2.2.2, ih⟩

/-! ## Runs of backslashes -/

/-- The number of backslashes at the end of a text. -/
def slashRun (text : Text) : Nat := (text.rtakeWhile (· == Codepoint.char '\\')).length

theorem slashRun_append (s t : Text) : slashRun (s ++ t) =
    if t.all (· == Codepoint.char '\\') then slashRun s + t.length else slashRun t := by
  rw [slashRun, List.rtakeWhile, List.reverse_append, List.length_reverse, List.takeWhile_append]
  have hall : (t.reverse.takeWhile (· == Codepoint.char '\\')).length = t.reverse.length ↔
      t.all (· == Codepoint.char '\\') = true := by
    rw [← List.all_reverse, List.all_eq_true, ← List.takeWhile_eq_self_iff]
    exact ⟨fun h => (List.takeWhile_prefix _).eq_of_length h, fun h => by rw [h]⟩
  by_cases h : t.all (· == Codepoint.char '\\') = true
  · rw [if_pos (hall.2 h), if_pos h, List.length_append, List.length_reverse, slashRun, List.rtakeWhile,
      List.length_reverse, Nat.add_comm]
  · rw [if_neg (mt hall.1 h), if_neg h, slashRun, List.rtakeWhile, List.length_reverse]

/-- After an even run of backslashes a run is counted as if it were the first one. -/
theorem even_slashRun_append {s : Text} (hs : Even (slashRun s)) (t : Text) :
    Even (slashRun (s ++ t)) ↔ Even (slashRun t) := by
  have ht := slashRun_append [] t
  rw [List.nil_append] at ht
  rw [slashRun_append]
  split
  · next hall =>
    rw [ht, if_pos hall, Nat.even_add, Nat.even_add]
    exact ⟨fun h => ⟨fun _ => h.1 hs, fun _ => ⟨0, rfl⟩⟩, fun h => ⟨fun _ => h.1 ⟨0, rfl⟩, fun _ => hs⟩⟩
  · rfl

theorem even_slashRun_singleton (hc : c ≠ '\\') : Even (slashRun [c]) := by
  rw [slashRun, List.rtakeWhile, List.reverse_singleton, List.takeWhile_cons_of_neg (by simpa using hc)]
  exact ⟨0, rfl⟩

/-- An escape ends with an even run of backslashes, the one that begins it included. -/
theorem even_slashRun_escape {body : Text} (hbody : ∀ d ∈ body, InEscape d) :
    Even (slashRun (.char '\\' :: c :: body)) := by
  rcases List.eq_nil_or_concat body with rfl | ⟨init, d, rfl⟩
  · by_cases hc : c = '\\'
    · rw [hc]
      exact ⟨1, rfl⟩
    · rw [show [.char '\\', c] = [.char '\\'] ++ [c] from rfl, slashRun_append, if_neg (by simpa using hc)]
      exact even_slashRun_singleton hc
  · have hd : d ≠ '\\' := (hbody d (by simp)).1
    rw [List.concat_eq_append, ← List.cons_append, ← List.cons_append, slashRun_append,
      if_neg (by simpa using hd)]
    exact even_slashRun_singleton hd

/-! ## Places between escapes -/

/-- What comes before a character that is not in a text goes on after that text. -/
theorem exists_append_of_not_mem {body : Text} (hc : c ∉ body) (h : body ++ rest = pre ++ c :: post) :
    ∃ inner, pre = body ++ inner ∧ rest = inner ++ c :: post := by
  rcases List.append_eq_append_iff.1 h with ⟨inner, hpre, hrest⟩ | ⟨_ | ⟨d, inner⟩, hbody, hrest⟩
  · exact ⟨inner, hpre, hrest⟩
  · exact ⟨[], by rw [hbody, List.append_nil, List.append_nil], hrest.symm⟩
  · obtain ⟨rfl, -⟩ := List.cons.inj hrest
    exact absurd (hbody ▸ List.mem_append_right pre List.mem_cons_self) hc

/-- What can be read comes apart at a place after an even run of backslashes, if what is there
is not inside an escape. -/
theorem Decodes.split (hc : ¬ InEscape c) (h : Decodes names text decoded) :
    ∀ {pre}, text = pre ++ c :: post → Even (slashRun pre) → ∃ before after,
      decoded = before ++ after ∧ Decodes names pre before ∧ Decodes names (c :: post) after := by
  induction h with
  | nil => exact fun htext => absurd htext.symm (List.append_ne_nil_of_right_ne_nil _ (List.cons_ne_nil _ _))
  | @plain d text decoded hslash hallowed htext ih =>
    rintro (_ | ⟨e, pre⟩) heq hrun
    · rw [List.nil_append] at heq
      exact ⟨[], _, rfl, .nil, heq ▸ .plain hslash hallowed htext⟩
    · rw [List.cons_append, List.cons.injEq] at heq
      obtain ⟨rfl, heq⟩ := heq
      have hrun' : Even (slashRun pre) := (even_slashRun_append (even_slashRun_singleton hslash) pre).1 hrun
      obtain ⟨before, after, rfl, hpre, hpost⟩ := ih heq hrun'
      exact ⟨d :: before, after, rfl, .plain hslash hallowed hpre, hpost⟩
  | @escape text rest out decoded hescape hrest ih =>
    obtain ⟨d, body, rfl, -, hbody, hagain⟩ := hescape.spelling
    rintro (_ | ⟨e, _ | ⟨e', pre⟩⟩) heq hrun
    · rw [List.nil_append] at heq
      exact ⟨[], _, rfl, .nil, heq ▸ .escape hescape hrest⟩
    · rw [List.cons_append, List.cons.injEq] at heq
      rw [← heq.1] at hrun
      exact absurd hrun (by decide)
    · simp only [List.cons_append, List.cons.injEq] at heq
      obtain ⟨rfl, rfl, heq⟩ := heq
      -- The place is not in the body of the escape, so it is in what comes after.
      obtain ⟨inner, rfl, rfl⟩ := exists_append_of_not_mem (fun hmem => hc (hbody c hmem)) heq
      have hrun' : Even (slashRun inner) :=
        (even_slashRun_append (even_slashRun_escape hbody) inner).1 hrun
      obtain ⟨before, after, rfl, hpre, hpost⟩ := ih rfl hrun'
      have hhead : ∀ x ∈ inner.head?, x ∈ (inner ++ c :: post).head? := by
        cases inner with
        | nil => exact nofun
        | cons y inner => exact fun x hx => hx
      exact ⟨out ++ before, after, (List.append_assoc ..).symm, .escape (hagain inner hhead) hpre, hpost⟩

/-- After an odd run of backslashes the last one of them begins an escape. -/
theorem exists_of_not_even (h : ¬ Even (slashRun pre)) :
    ∃ init, pre = init ++ [.char '\\'] ∧ Even (slashRun init) := by
  rcases List.eq_nil_or_concat pre with rfl | ⟨init, d, rfl⟩
  · exact absurd ⟨0, rfl⟩ h
  · rw [List.concat_eq_append] at h ⊢
    by_cases hd : d = '\\'
    · subst hd
      rw [slashRun_append, if_pos (by decide), List.length_singleton, Nat.even_add_one, not_not] at h
      exact ⟨init, rfl, h⟩
    · rw [slashRun_append, if_neg (by simpa using hd)] at h
      exact absurd (even_slashRun_singleton hd) h

/-- A line break after an even run of backslashes is kept. -/
theorem Decodes.kept (hc : c = '\n' ∨ c = '\r') (h : Decodes names (pre ++ c :: post) decoded)
    (hrun : Even (slashRun pre)) : ∃ before after,
      decoded = before ++ c :: after ∧ Decodes names pre before ∧ Decodes names post after := by
  have hplace : ¬ InEscape c := by rcases hc with rfl | rfl <;> decide
  have hslash : c ≠ '\\' := by rcases hc with rfl | rfl <;> decide
  obtain ⟨before, after, rfl, hpre, hpost⟩ := h.split hplace rfl hrun
  obtain ⟨-, after, rfl, hafter⟩ := (decodes_plain hslash).1 hpost
  exact ⟨before, after, rfl, hpre, hafter⟩

/-- A line break after an odd run of backslashes is left out, and the last backslash with it. -/
theorem Decodes.removed (hc : c = '\n' ∨ c = '\r') (h : Decodes names (pre ++ c :: post) decoded)
    (hrun : ¬ Even (slashRun pre)) : ∃ init before after, pre = init ++ [.char '\\'] ∧
      decoded = before ++ after ∧ Decodes names init before ∧ Decodes names post after := by
  obtain ⟨init, rfl, heven⟩ := exists_of_not_even hrun
  rw [List.append_assoc, List.singleton_append] at h
  obtain ⟨before, after, rfl, hinit, hpost⟩ := h.split (by decide) rfl heven
  obtain ⟨out, rest, after, hescape, rfl, hafter⟩ := decodes_slash.1 hpost
  obtain ⟨rfl, rfl⟩ := hescape.lineBreak_eq hc
  exact ⟨init, before, after, rfl, rfl, hinit, hafter⟩

/-! ## What cannot be read -/

/-- A backslash should begin an escape and does not. -/
def BadEscape (names : NameTable) (text : Text) : Prop :=
  ∃ pre post, text = pre ++ .char '\\' :: post ∧ Even (slashRun pre) ∧
    ∀ out rest, ¬ Escape names post out rest

/-- What cannot be read has a NUL or a surrogate, or a bad escape. -/
def Faulty (names : NameTable) (text : Text) : Prop :=
  (∃ c ∈ text, c = '\x00' ∨ c.isChar = false) ∨ BadEscape names text

theorem Decodes.not_faulty (h : Decodes names text decoded) : ¬ Faulty names text := by
  rintro (⟨c, hc, hnull⟩ | ⟨pre, post, rfl, hrun, hpost⟩)
  · obtain ⟨hne, hchar⟩ := h.allowed c hc
    exact hnull.elim hne fun hsurrogate => by rw [hsurrogate] at hchar; cases hchar
  · obtain ⟨_, _, _, -, hescape⟩ := h.split (by decide) rfl hrun
    obtain ⟨out, rest, -, hout, -⟩ := decodes_slash.1 hescape
    exact hpost out rest hout

/-- The rest of a text after an even run of backslashes has no fault if the text has none. -/
theorem Faulty.append {s : Text} (hs : Even (slashRun s)) (h : Faulty names text) :
    Faulty names (s ++ text) := by
  rcases h with ⟨c, hc, hnull⟩ | ⟨pre, post, rfl, hrun, hpost⟩
  · exact .inl ⟨c, List.mem_append_right s hc, hnull⟩
  · exact .inr ⟨s ++ pre, post, (List.append_assoc ..).symm, (even_slashRun_append hs pre).2 hrun, hpost⟩

/-- What has no fault can be read. -/
theorem exists_decodes (h : ¬ Faulty names text) : ∃ decoded, Decodes names text decoded := by
  induction hn : text.length using Nat.strong_induction_on generalizing text with
  | _ n ih =>
    subst hn
    cases text with
    | nil => exact ⟨[], .nil⟩
    | cons c text =>
      by_cases hc : c = '\\'
      · subst hc
        have hescape : ∃ out rest, Escape names text out rest := by
          by_contra hnone
          exact h (.inr ⟨[], text, rfl, ⟨0, rfl⟩, fun out rest hout => hnone ⟨out, rest, hout⟩⟩)
        obtain ⟨out, rest, hescape⟩ := hescape
        obtain ⟨d, body, rfl, -, hbody, -⟩ := hescape.spelling
        have hrest : ¬ Faulty names rest := mt (Faulty.append (even_slashRun_escape hbody)) h
        obtain ⟨decoded, hdecoded⟩ := ih rest.length (by simp; omega) hrest rfl
        exact ⟨out ++ decoded, .escape hescape hdecoded⟩
      · have htext : ¬ Faulty names text := mt (Faulty.append (even_slashRun_singleton hc)) h
        have hallowed : Allowed c := by
          by_contra hnot
          rw [Allowed, Classical.not_and_iff_not_or_not, not_not, Bool.not_eq_true] at hnot
          exact h (.inl ⟨c, List.mem_cons_self, hnot⟩)
        obtain ⟨decoded, hdecoded⟩ := ih text.length (by simp) htext rfl
        exact ⟨c :: decoded, .plain hc hallowed hdecoded⟩

theorem not_exists_decodes : (¬ ∃ decoded, Decodes names text decoded) ↔ Faulty names text :=
  ⟨fun h => by_contra fun hfault => h (exists_decodes hfault), fun hfault ⟨_, h⟩ => h.not_faulty hfault⟩

end Pegboard.Literal
