import Pegboard.Definition.Literal
import Pegboard.Expr.Build
import Pegboard.Proofs.Syntax.Spelling
import Pegboard.Proofs.Text.Quoted

/-!
# Literals, patterns and flags as they are written back

A text is written as a literal, and a pattern with its flags, in such a way that reading
gives them back.  What is written is a token of the definition language: nothing in it
closes it before its end.

An escaped character is a backslash and what follows, and reading takes both at once, so
all proofs go character by character over the text that is written.
-/

namespace Pegboard

open Syntax

/-! ## Bodies of quoted texts -/

namespace Syntax

/-- The body of a quoted text: the next quote is the first one that closes it. -/
def ClosedBody (body : Text) : Prop :=
  ∀ rest, scanBody (body ++ .char '"' :: rest) = some (body, rest)

theorem closedBody_nil : ClosedBody [] := scanBody_quote

theorem closedBody_plain {c : Codepoint} {body : Text}
    (hc : c ≠ '"' ∧ c ≠ '\\') (h : ClosedBody body) :
    ClosedBody (c :: body) := by
  intro rest
  have hplain : plain.holds c = true := by simpa using hc
  rw [List.cons_append, scanBody_plain hplain, h rest]
  rfl

theorem closedBody_escape (d : Codepoint) {body : Text} (h : ClosedBody body) :
    ClosedBody (.char '\\' :: d :: body) := by
  intro rest
  rw [List.cons_append, List.cons_append, scanBody_escape, h rest]
  rfl

end Syntax

/-! ## Literals -/

namespace Literal

/-- How a character is written: as an escape of one letter, as a control by its number, or
as it is. -/
theorem writeChar_cases (c : Codepoint) :
    (∃ d : Char, writeChar c = [.char '\\', .char d] ∧ slashStep d = some ([c], .plain)) ∨
    (c.toNat < 0x20 ∧ writeChar c =
      ([.char '\\', .char 'u', .char '0', .char '0', .char (Nat.digitChar (c.toNat / 16)),
        .char (Nat.digitChar (c.toNat % 16))] : Text)) ∨
    (writeChar c = [c] ∧ c ≠ '"' ∧ c ≠ '\\' ∧ c ≠ '\n' ∧ c ≠ '\r' ∧ ¬ c.toNat < 0x20) := by
  unfold writeChar
  split
  · next h => exact .inl ⟨'"', rfl, by rw [h]; rfl⟩
  split
  · next h => exact .inl ⟨'\\', rfl, by rw [h]; rfl⟩
  split
  · next h => exact .inl ⟨'n', rfl, by rw [h]; rfl⟩
  split
  · next h => exact .inl ⟨'r', rfl, by rw [h]; rfl⟩
  split
  · next h => exact .inl ⟨'t', rfl, by rw [h]; rfl⟩
  split
  · next h => exact .inl ⟨'f', rfl, by rw [h]; rfl⟩
  split
  · next h => exact .inl ⟨'b', rfl, by rw [h]; rfl⟩
  split
  · next h => exact .inr (.inl ⟨h, rfl⟩)
  · next hquote hslash hfeed hreturn _ _ _ hcontrol =>
    exact .inr (.inr ⟨rfl, hquote, hslash, hfeed, hreturn, hcontrol⟩)

/-- A written character goes on with a body. -/
theorem closedBody_writeChar (c : Codepoint) {body : Text} (h : ClosedBody body) :
    ClosedBody (writeChar c ++ body) := by
  rcases writeChar_cases c with ⟨d, hwrite, -⟩ | ⟨hlt, hwrite⟩ | ⟨hwrite, hquote, hslash, -⟩
  · rw [hwrite]
    exact closedBody_escape d h
  · obtain ⟨hquote, hslash, -⟩ := Codepoint.digitChar_plain (c.toNat / 16) (by omega)
    obtain ⟨hquote', hslash', -⟩ := Codepoint.digitChar_plain (c.toNat % 16) (by omega)
    rw [hwrite]
    exact closedBody_escape _ (closedBody_plain (by decide) (closedBody_plain (by decide)
      (closedBody_plain ⟨hquote, hslash⟩ (closedBody_plain ⟨hquote', hslash'⟩ h))))
  · rw [hwrite]
    exact closedBody_plain ⟨hquote, hslash⟩ h

theorem closedBody_written (text : Text) : ClosedBody (text.flatMap writeChar) := by
  induction text with
  | nil => exact closedBody_nil
  | cons c text ih => exact closedBody_writeChar c ih

theorem escapeBreaks_escape (d : Codepoint) (rest : Text) :
    escapeBreaks (.char '\\' :: d :: rest) = .char '\\' :: d :: escapeBreaks rest := by
  rw [escapeBreaks]

theorem escapeBreaks_plain {c : Codepoint} (hc : c ≠ '\\' ∧ c ≠ '\n' ∧ c ≠ '\r') (rest : Text) :
    escapeBreaks (c :: rest) = c :: escapeBreaks rest := by
  obtain ⟨hslash, hfeed, hreturn⟩ := hc
  rw [escapeBreaks]
  · rw [if_neg hfeed, if_neg hreturn]
  · exact fun h _ => hslash h
  · exact fun _ _ h _ => hslash h

/-- A written literal has no bare line breaks. -/
theorem escapeBreaks_writeChar (c : Codepoint) (rest : Text) :
    escapeBreaks (writeChar c ++ rest) = writeChar c ++ escapeBreaks rest := by
  rcases writeChar_cases c with ⟨d, hwrite, -⟩ | ⟨hlt, hwrite⟩ |
    ⟨hwrite, -, hslash, hfeed, hreturn, -⟩
  · rw [hwrite]
    exact escapeBreaks_escape d rest
  · obtain ⟨-, hplain⟩ := Codepoint.digitChar_plain (c.toNat / 16) (by omega)
    obtain ⟨-, hplain'⟩ := Codepoint.digitChar_plain (c.toNat % 16) (by omega)
    rw [hwrite]
    simp only [List.cons_append, List.nil_append]
    rw [escapeBreaks_escape, escapeBreaks_plain (by decide), escapeBreaks_plain (by decide),
      escapeBreaks_plain hplain, escapeBreaks_plain hplain']
  · rw [hwrite]
    exact escapeBreaks_plain ⟨hslash, hfeed, hreturn⟩ rest

theorem escapeBreaks_written (text rest : Text) :
    escapeBreaks (text.flatMap writeChar ++ rest) = text.flatMap writeChar ++ escapeBreaks rest := by
  induction text with
  | nil => rfl
  | cons c text ih => rw [List.flatMap_cons, List.append_assoc, escapeBreaks_writeChar, ih,
      List.append_assoc]

theorem Value.prepend_nil (v : Value) : v.prepend [] = v := by
  cases v <;> rfl

variable {names : NameTable}

theorem step_of_isChar {quote c : Codepoint} {phase : Phase} (h : c.isChar = true) :
    step names quote phase c = charStep names quote phase c := if_pos h

theorem decode_cons {quote : Codepoint} {phase phase' : Phase} {c : Codepoint} {out : Text}
    (h : step names quote phase c = some (out, phase')) (rest : Text) :
    decode names quote phase (c :: rest) = (decode names quote phase' rest).prepend out := by
  cases phase with
  | closed =>
    rw [step] at h
    split at h <;> cases h
  | _ =>
    rw [decode, h]
    exact nofun

theorem decode_slash {quote : Codepoint} (hquote : quote ≠ '\\') (rest : Text) :
    decode names quote .plain (.char '\\' :: rest) = decode names quote .slash rest := by
  have hstep : step names quote .plain '\\' = some ([], .slash) := by
    rw [step_of_isChar rfl, charStep, plainStep, if_neg hquote.symm, if_pos rfl]
  rw [decode_cons hstep, Value.prepend_nil]

/-- A written character is decoded. -/
theorem decode_writeChar {c : Codepoint} (hc : c.isChar = true) (rest : Text) :
    decode names '"' .plain (writeChar c ++ rest) = (decode names '"' .plain rest).prepend [c] := by
  rcases writeChar_cases c with ⟨d, hwrite, hstep⟩ | ⟨hlt, hwrite⟩ |
    ⟨hwrite, hquote, hslash, hfeed, hreturn, hcontrol⟩
  · rw [hwrite, List.cons_append, List.singleton_append, decode_slash (by decide),
      decode_cons (show step names '"' .slash d = _ from hstep)]
  · have hhigh := Codepoint.hexValue?_digitChar (c.toNat / 16) (by omega)
    have hlow := Codepoint.hexValue?_digitChar (c.toNat % 16) (by omega)
    have hstep : step names '"' (.hex 2 0) (Nat.digitChar (c.toNat / 16)) =
        some ([], .hex 1 (c.toNat / 16)) := by
      rw [step_of_isChar rfl, charStep, hexStep, hhigh]
      simp
    have hstep' : step names '"' (.hex 1 (c.toNat / 16)) (Nat.digitChar (c.toNat % 16)) =
        some ([c], .plain) := by
      rw [step_of_isChar rfl, charStep, hexStep, hlow]
      dsimp only
      rw [if_pos (Nat.le_refl 1), Nat.div_add_mod, if_pos (by omega), Codepoint.ofNat_toNat]
    rw [hwrite]
    simp only [List.cons_append, List.nil_append]
    rw [decode_slash (by decide),
      decode_cons (show step names '"' .slash 'u' = some ([], .hex 4 0) from rfl),
      decode_cons (show step names '"' (.hex 4 0) '0' = some ([], .hex 3 0) from rfl),
      decode_cons (show step names '"' (.hex 3 0) '0' = some ([], .hex 2 0) from rfl),
      decode_cons hstep, decode_cons hstep']
    simp only [Value.prepend_nil]
  · have hstep : step names '"' .plain c = some ([c], .plain) := by
      have hnull : c ≠ '\x00' := by
        rintro rfl
        exact hcontrol (by decide)
      simp [step_of_isChar hc, charStep, plainStep, hquote, hslash, hfeed, hreturn, hnull]
    rw [hwrite, List.singleton_append, decode_cons hstep]

theorem decode_written {text : Text} (h : text.NoSurrogate) :
    decode names '"' .plain (text.flatMap writeChar ++ [.char '"']) = .string text := by
  induction text with
  | nil => rfl
  | cons c text ih =>
    obtain ⟨hc, htext⟩ := List.forall_mem_cons.1 h
    rw [List.flatMap_cons, List.append_assoc, decode_writeChar hc, ih htext]
    rfl

/-- A written literal comes to its text, whatever names there are. -/
theorem evaluate_write (names : NameTable) {text : Text} (h : text.NoSurrogate) :
    evaluate names (write text) = .string text := by
  have hbreaks : escapeBreaks (write text) = write text := by
    rw [write, escapeBreaks_plain (by decide), escapeBreaks_written]
    rfl
  rw [evaluate, hbreaks, write]
  exact decode_written h

/-- A written literal spells its text. -/
theorem value?_write [Platform] {text : Text} (h : text.NoSurrogate) :
    value? (write text) = some text := by
  rw [value?, evaluate_write _ h]

/-! ## Patterns -/

theorem closedBody_escaped (pattern : Text) : ClosedBody (escape pattern) := by
  induction pattern with
  | nil => exact closedBody_nil
  | cons c pattern ih =>
    rw [escape, List.flatMap_cons]
    split
    · exact closedBody_escape c ih
    · next hc =>
      rw [not_or] at hc
      exact closedBody_plain ⟨hc.2, hc.1⟩ ih

/-- Reading an escaped pattern gives it back. -/
theorem unescape_escape (pattern : Text) : unescape (escape pattern) = pattern := by
  induction pattern with
  | nil => rfl
  | cons c pattern ih =>
    rw [escape, List.flatMap_cons, ← escape]
    split
    · next hc =>
      rw [List.cons_append, List.singleton_append, unescape, if_pos hc, ih]
    · next hc =>
      rw [not_or] at hc
      rw [List.singleton_append, unescape, ih]
      · exact fun h _ => hc.1 h
      · exact fun _ _ h _ => hc.1 h

end Literal

namespace Regex

/-- The letters of flags. -/
def flagLetters : Text := "ilmsuxa".toText

theorem Flags.letters_subset (f : Flags) : ∀ c ∈ f.letters, c ∈ flagLetters := by
  have hletter : ∀ {set : Bool} {d c : Codepoint}, d ∈ flagLetters → c ∈ (if set then [d] else []) →
      c ∈ flagLetters := by
    intro set d c hd hc
    cases set with
    | false => exact absurd hc List.not_mem_nil
    | true =>
      obtain rfl := List.mem_singleton.1 hc
      exact hd
  intro c hc
  simp only [Flags.letters, List.mem_append] at hc
  rcases hc with (((((hc | hc) | hc) | hc) | hc) | hc) | hc <;> exact hletter (by decide) hc

/-- The letters are in lower case. -/
theorem Flags.lowered_letters (f : Flags) : Flags.lowered f.letters = f.letters := by
  have hall : flagLetters.all (fun c => (Codepoint.lower c.toNat).map Codepoint.ofNat == [c]) = true := by
    decide
  have hlower : ∀ c ∈ flagLetters, (Codepoint.lower c.toNat).map Codepoint.ofNat = [c] :=
    fun c hc => eq_of_beq (List.all_eq_true.1 hall c hc)
  have h : ∀ s : Text, (∀ c ∈ s, c ∈ flagLetters) → Flags.lowered s = s := by
    intro s hs
    induction s with
    | nil => rfl
    | cons c s ih =>
      rw [Flags.lowered, List.flatMap_cons, hlower c (hs c List.mem_cons_self), ← Flags.lowered,
        ih fun d hd => hs d (List.mem_cons_of_mem c hd)]
      rfl
  exact h _ f.letters_subset

/-- The letters of flags are read as the flags. -/
theorem Flags.ofLetters_letters (f : Flags) : Flags.ofLetters f.letters = .ok f := by
  rw [Flags.ofLetters, Flags.lowered_letters]
  obtain ⟨i, l, m, s, u, x, a⟩ := f
  cases i <;> cases l <;> cases m <;> cases s <;> cases u <;> cases x <;> cases a <;> rfl

/-- A pattern that is accepted is known by its source and its letters. -/
theorem Pattern.ofWritten_self [Platform] {p : Pattern} (h : p.Accepted) :
    Pattern.ofWritten p.source p.flags.letters = .ok p := by
  rw [Pattern.ofWritten, Flags.ofLetters_letters]
  exact if_pos h

end Regex

end Pegboard
