import Mathlib.Algebra.Group.Nat.Defs
import Pegboard.Text.Quoted

/-!
# Texts in quotes can be told apart

A text in quotes can be read back.  The first quote says which quote is in use, and each
code point that is written between the quotes tells where it ends: a backslash is followed
by the one character that it escapes, or by a letter that says how many digits come next
(`readShown_quotedChar`).  So two texts that look the same in quotes are the same
(`quoted_injective`).  No line break is left in quotes.
-/

namespace Pegboard

/-! ## Digits -/

namespace Codepoint

/-- The hexadecimal digits of a number are read back. -/
theorem hexValue?_digitChar : ∀ n < 16, hexValue? (Nat.digitChar n) = some n := by decide

/-- The digits of a number are neither quotes, backslashes nor line breaks. -/
theorem digitChar_plain : ∀ n < 16, char (Nat.digitChar n) ≠ '"' ∧ char (Nat.digitChar n) ≠ '\\' ∧
    char (Nat.digitChar n) ≠ '\n' ∧ char (Nat.digitChar n) ≠ '\r' := by
  decide

end Codepoint

namespace Text

/-- The number that hexadecimal digits spell. -/
def hexNumber (digits : Text) : Nat :=
  digits.foldl (fun n d => 16 * n + (Codepoint.hexValue? d).getD 0) 0

theorem length_hexDigits : ∀ width n : Nat, (hexDigits width n).length = width
  | 0, _ => rfl
  | width + 1, n => by rw [hexDigits, List.length_append, length_hexDigits width, List.length_singleton]

theorem hexNumber_hexDigits : ∀ {width n : Nat}, n < 16 ^ width → hexNumber (hexDigits width n) = n
  | 0, n, h => by
    rw [Nat.pow_zero, Nat.lt_one_iff] at h
    rw [h]
    rfl
  | width + 1, n, h => by
    have hhigh : n / 16 < 16 ^ width := by
      rw [Nat.pow_succ] at h
      exact Nat.div_lt_of_lt_mul (by rwa [Nat.mul_comm])
    have hlow := Codepoint.hexValue?_digitChar (n % 16) (Nat.mod_lt n (by decide))
    have ih := hexNumber_hexDigits hhigh
    rw [hexNumber] at ih
    rw [hexNumber, hexDigits, List.foldl_append, ih, List.foldl_cons, List.foldl_nil, hlow, Option.getD_some,
      Nat.div_add_mod]

theorem not_mem_hexDigits {c : Codepoint} (hc : ∀ n < 16, Codepoint.char (Nat.digitChar n) ≠ c) :
    ∀ width n : Nat, c ∉ hexDigits width n
  | 0, _ => List.not_mem_nil
  | width + 1, n => by
    rw [hexDigits, List.mem_append, List.mem_singleton]
    rintro (h | h)
    · exact not_mem_hexDigits hc width (n / 16) h
    · exact hc (n % 16) (Nat.mod_lt n (by decide)) h.symm

/-! ## Code points -/

/-- Reads a code point by its number, of so many digits. -/
def readNumbered (width : Nat) (s : Text) : Option (Nat × Text) :=
  some (hexNumber (s.take width), s.drop width)

/-- Reads a code point as it is shown between quotes. -/
def readShown : Text → Option (Nat × Text)
  | [] => none
  | .char '\\' :: .char 'n' :: s => some (0x0a, s)
  | .char '\\' :: .char 'r' :: s => some (0x0d, s)
  | .char '\\' :: .char 't' :: s => some (0x09, s)
  | .char '\\' :: .char 'x' :: s => readNumbered 2 s
  | .char '\\' :: .char 'u' :: s => readNumbered 4 s
  | .char '\\' :: .char 'U' :: s => readNumbered 8 s
  | .char '\\' :: c :: s => some (c.toNat, s)
  | c :: s => some (c.toNat, s)

theorem readShown_plain {c : Codepoint} (hc : c ≠ '\\') (rest : Text) :
    readShown (c :: rest) = some (c.toNat, rest) := by
  rw [readShown]
  all_goals
    intros
    contradiction

theorem readNumbered_hexDigits {width n : Nat} (h : n < 16 ^ width) (rest : Text) :
    readNumbered width (hexDigits width n ++ rest) = some (n, rest) := by
  have hlength := length_hexDigits width n
  rw [readNumbered, List.take_left' hlength, List.drop_left' hlength, hexNumber_hexDigits h]

theorem readShown_numbered {n : Nat} (h : n < 0x110000) (rest : Text) :
    readShown (numbered n ++ rest) = some (n, rest) := by
  unfold numbered
  split
  · next hn => exact readNumbered_hexDigits (by omega) rest
  split
  · next hn => exact readNumbered_hexDigits (by omega) rest
  · exact readNumbered_hexDigits (by omega) rest

theorem quoteOf_cases (text : Text) : quoteOf text = '"' ∨ quoteOf text = '\'' := by
  unfold quoteOf
  split
  · exact .inl rfl
  · exact .inr rfl

/-- A code point that is shown between quotes is read back, whatever comes next. -/
theorem readShown_quotedChar {quote : Codepoint}
    (hquote : quote = '"' ∨ quote = '\'') (c : Codepoint) (rest : Text) :
    readShown (quotedChar quote c ++ rest) = some (c.toNat, rest) := by
  unfold quotedChar
  split
  · next hc =>
    rcases hc with rfl | rfl
    · rcases hquote with rfl | rfl <;> rfl
    · rfl
  · next hc =>
    rw [not_or] at hc
    split
    · next h => rw [h]; rfl
    split
    · next h => rw [h]; rfl
    split
    · next h => rw [h]; rfl
    split
    · exact readShown_plain hc.2 rest
    · exact readShown_numbered c.toNat_lt rest

/-! ## Texts -/

/-- Two texts that are shown the same between quotes of a kind are the same. -/
theorem flatMap_quotedChar_injective {quote : Codepoint} (hquote : quote = '"' ∨ quote = '\'')
    {s t : Text} (h : s.flatMap (quotedChar quote) = t.flatMap (quotedChar quote)) : s = t := by
  have hread : ∀ (c : Codepoint) (s : Text), readShown ((c :: s).flatMap (quotedChar quote)) =
      some (c.toNat, s.flatMap (quotedChar quote)) := by
    intro c s
    rw [List.flatMap_cons, readShown_quotedChar hquote]
  induction s generalizing t with
  | nil =>
    cases t with
    | nil => rfl
    | cons d t =>
      have hd := hread d t
      rw [← h] at hd
      cases hd
  | cons c s ih =>
    have hc := hread c s
    rw [h] at hc
    cases t with
    | nil => cases hc
    | cons d t =>
      rw [hread d t, Option.some.injEq, Prod.mk.injEq] at hc
      obtain ⟨hcode, hrest⟩ := hc
      rw [Codepoint.toNat_inj.1 hcode, ih hrest.symm]

/-- Two texts that are the same in quotes are the same. -/
theorem quoted_injective {s t : Text} (h : s.quoted = t.quoted) : s = t := by
  obtain ⟨hquote, hbody⟩ := List.cons.inj h
  rw [hquote] at hbody
  exact flatMap_quotedChar_injective (quoteOf_cases t) (List.append_cancel_right hbody)

/-- There is no line break in quotes. -/
theorem lineFeed_not_mem_quotedChar {quote : Codepoint}
    (hquote : quote = '"' ∨ quote = '\'') (c : Codepoint) :
    Codepoint.char '\n' ∉ quotedChar quote c := by
  have hdigits := not_mem_hexDigits fun n hn => (Codepoint.digitChar_plain n hn).2.2.1
  unfold quotedChar numbered
  split
  · next hc =>
    rcases hc with rfl | rfl
    · rcases hquote with rfl | rfl <;> decide
    · decide
  split
  · decide
  split
  · decide
  split
  · decide
  split
  · next h _ _ _ => simpa using Ne.symm h
  split
  · simpa using hdigits 2 c.toNat
  split
  · simpa using hdigits 4 c.toNat
  · simpa using hdigits 8 c.toNat

theorem lineFeed_not_mem_quoted (text : Text) : Codepoint.char '\n' ∉ text.quoted := by
  have hquote := quoteOf_cases text
  have hne : Codepoint.char '\n' ≠ quoteOf text := by rcases hquote with h | h <;> rw [h] <;> decide
  simp only [quoted, List.mem_cons, List.mem_append, List.mem_flatMap, List.not_mem_nil, or_false, not_or,
    not_exists, not_and]
  exact ⟨hne, fun c _ => lineFeed_not_mem_quotedChar hquote c, hne⟩

end Text

end Pegboard
