/-!
# Code points

A text is made of code points.  Most code points are characters.  The numbers from
U+D800 to U+DFFF are those of surrogates, of which a pair spells a character in some
encodings.  A surrogate by itself is no character, and UTF-8 has no form for it.  A
text may hold it all the same.
-/

namespace Pegboard

/-- A code point. -/
inductive Codepoint where
  /-- A character. -/
  | char (c : Char)
  /-- A surrogate, counted from the first one. -/
  | surrogate (index : Fin 0x800)
  deriving DecidableEq, Repr

namespace Codepoint

instance : Coe Char Codepoint := ⟨char⟩

/-- The number of a code point. -/
def toNat : Codepoint → Nat
  | char c => c.toNat
  | surrogate index => 0xd800 + index

/-- The code point of a number below U+110000. -/
def ofNat (n : Nat) : Codepoint :=
  if h : 0xd800 ≤ n ∧ n < 0xe000 then surrogate ⟨n - 0xd800, by omega⟩ else char (.ofNat n)

/-- Whether a code point is a character. -/
def isChar : Codepoint → Bool
  | char _ => true
  | surrogate _ => false

/-- Whether a code point is one of the ten digits of ASCII. -/
def isAsciiDigit : Codepoint → Bool
  | char c => c.isDigit
  | surrogate _ => false

/-- Whether a code point is a letter of ASCII. -/
def isAsciiLetter : Codepoint → Bool
  | char c => c.isAlpha
  | surrogate _ => false

/-- Whether a code point is an octal digit. -/
def isOctal (c : Codepoint) : Bool := 0x30 ≤ c.toNat && c.toNat ≤ 0x37

/-- The value of a hexadecimal digit. -/
def hexValue? (c : Codepoint) : Option Nat :=
  if c.isAsciiDigit then some (c.toNat - 0x30)
  else if 0x61 ≤ c.toNat && c.toNat ≤ 0x66 then some (c.toNat - 0x57)
  else if 0x41 ≤ c.toNat && c.toNat ≤ 0x46 then some (c.toNat - 0x37)
  else none

/-- The letter of ASCII in upper case, and any other code point as it is. -/
def asciiUpper : Codepoint → Codepoint
  | char c => char c.toUpper
  | c => c

@[simp] theorem toNat_char (c : Char) : (char c).toNat = c.toNat := rfl

/-- No character has the number of a surrogate. -/
theorem not_surrogate_toNat (c : Char) : ¬(0xd800 ≤ c.toNat ∧ c.toNat < 0xe000) := by
  have h := c.valid
  simp only [UInt32.isValidChar, Nat.isValidChar] at h
  rw [Char.toNat]
  omega

theorem toNat_inj {c d : Codepoint} : c.toNat = d.toNat ↔ c = d := by
  refine ⟨fun h => ?_, fun h => h ▸ rfl⟩
  cases c with
  | char c =>
    cases d with
    | char d => exact congrArg char (Char.ext (UInt32.toNat_inj.1 h))
    | surrogate j =>
      have := not_surrogate_toNat c
      simp only [toNat] at h
      omega
  | surrogate i =>
    cases d with
    | char d =>
      have := not_surrogate_toNat d
      simp only [toNat] at h
      omega
    | surrogate j =>
      simp only [toNat] at h
      exact congrArg surrogate (Fin.ext (by omega))

theorem toNat_ofNat {n : Nat} (h : n < 0x110000) : (ofNat n).toNat = n := by
  unfold ofNat
  split
  · simp only [toNat]
    omega
  · have hvalid : n.isValidChar := by
      simp only [Nat.isValidChar]
      omega
    rw [toNat_char, Char.ofNat, dif_pos hvalid]
    rfl

theorem toNat_lt (c : Codepoint) : c.toNat < 0x110000 := by
  cases c with
  | char c =>
    have h := c.valid
    simp only [UInt32.isValidChar, Nat.isValidChar] at h
    rw [toNat_char, Char.toNat]
    omega
  | surrogate i =>
    simp only [toNat]
    omega

@[simp] theorem ofNat_toNat (c : Codepoint) : ofNat c.toNat = c :=
  toNat_inj.1 (toNat_ofNat c.toNat_lt)

example : ofNat 0x61 = 'a' ∧ (ofNat 0xd83d).toNat = 0xd83d := by decide

end Codepoint

end Pegboard
