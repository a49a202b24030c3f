import Pegboard.Proofs.Syntax.Escapes

/-!
# The phases of decoding

Decoding goes character by character, and a phase is what is left open between two of them.
In the one-pass reading a phase stands for a set of texts that may come next, each with the
text that it adds (`Opens`).  One character leads from the set of a phase to the set
of the next phase (`opens_cons`).  A bare line break and the escape that is written for it
lead to the same set from every phase in which a line break is bare (`opens_lineBreak`).
-/

namespace Pegboard.Literal

/-! ## What a phase leaves open -/

/-- The number that octal digits spell after the digits of a number. -/
def octalFrom (value : Nat) (digits : Text) : Nat :=
  digits.foldl (fun n d => 8 * n + (d.toNat - 0x30)) value

/-- The number that hexadecimal digits spell after the digits of a number. -/
def hexFrom (value : Nat) (digits : Text) : Nat :=
  digits.foldl (fun n d => 16 * n + d.hexValue?.getD 0) value

theorem octal_cons (d : Codepoint) (digits : Text) :
    Text.octalNumber (d :: digits) = octalFrom (d.toNat - 0x30) digits := by
  rw [Text.octalNumber, List.foldl_cons, Nat.mul_zero, Nat.zero_add]
  rfl

theorem hexFrom_cons {d : Codepoint} {n : Nat} (hd : d.hexValue? = some n) (value : Nat)
    (digits : Text) :
    hexFrom value (d :: digits) = hexFrom (16 * value + n) digits := by
  rw [hexFrom, List.foldl_cons, hd]
  rfl

/-- What may come next in a phase, up to the closing quote, with the text that it adds. -/
def Opens (names : NameTable) : Phase → Text → Text → Prop
  | .plain, text, decoded => Decodes names text decoded
  | .slash, text, decoded => Decodes names (.char '\\' :: text) decoded
  | .octal left value, text, decoded => ∃ digits rest more, text = digits ++ rest ∧
      (∀ d ∈ digits, d.isOctal = true) ∧ digits.length ≤ left ∧
      (digits.length = left ∨ ∀ d ∈ rest.head?, d.isOctal = false) ∧
      octalFrom value digits ≤ 0xff ∧ decoded = .ofNat (octalFrom value digits) :: more ∧
      Decodes names rest more
  | .hex left value, text, decoded => ∃ digits rest more, text = digits ++ rest ∧
      (∀ d ∈ digits, d.hexValue?.isSome) ∧ digits.length = max left 1 ∧
      hexFrom value digits ≤ 0x10ffff ∧ decoded = .ofNat (hexFrom value digits) :: more ∧
      Decodes names rest more
  | .brace, text, decoded => ∃ name rest code more,
      text = .char '{' :: (name ++ .char '}' :: rest) ∧ name ≠ [] ∧
      (∀ c ∈ name, isNameChar c = true) ∧ names name = some code ∧ decoded = code :: more ∧
      Decodes names rest more
  | .name soFar, text, decoded => ∃ name rest code more, text = name ++ .char '}' :: rest ∧
      soFar ++ name ≠ [] ∧
      (∀ c ∈ name, isNameChar c = true) ∧ names (soFar ++ name) = some code ∧ decoded = code :: more ∧
      Decodes names rest more
  | .closed, _, _ => False

/-- Whether a backslash would begin an escape. -/
def Phase.Outer : Phase → Prop
  | .slash | .closed => False
  | _ => True

theorem Phase.Outer.ne_closed {phase : Phase} (h : phase.Outer) : phase ≠ .closed := by
  rintro rfl
  exact h

/-- One character leads from a phase to what the rest of a text adds. -/
def Leads (names : NameTable) (phase : Phase) (c : Codepoint) (text : Text) (decoded : Text) :
    Prop :=
  ∃ out next more, charStep names '"' phase c = some (out, next) ∧ decoded = out ++ more ∧
    Opens names next text more

variable {names : NameTable} {phase next : Phase} {c : Codepoint} {text decoded out : Text}

/-- There is neither a NUL nor a surrogate in what may come next. -/
theorem Opens.allowed (h : Opens names phase text decoded) : ∀ c ∈ text, Allowed c := by
  cases phase with
  | plain => exact Decodes.allowed h
  | slash => exact fun c hc => Decodes.allowed h c (List.mem_cons_of_mem _ hc)
  | octal left value =>
    obtain ⟨digits, rest, more, rfl, hdigits, -, -, -, -, hrest⟩ := h
    exact List.forall_mem_append.2 ⟨fun d hd => (inEscape_of_isOctal (hdigits d hd)).2.2.2, hrest.allowed⟩
  | hex left value =>
    obtain ⟨digits, rest, more, rfl, hdigits, -, -, -, hrest⟩ := h
    exact List.forall_mem_append.2 ⟨fun d hd => (inEscape_of_hexValue? (hdigits d hd)).2.2.2, hrest.allowed⟩
  | brace =>
    obtain ⟨name, rest, d, more, rfl, -, hname, -, -, hrest⟩ := h
    refine List.forall_mem_cons.2 ⟨by decide, List.forall_mem_append.2 ⟨?_,
      List.forall_mem_cons.2 ⟨by decide, ?_⟩⟩⟩
    · exact fun c hc => (inEscape_of_isNameChar (hname c hc)).2.2.2
    · exact hrest.allowed
  | name soFar =>
    obtain ⟨name, rest, d, more, rfl, -, hname, -, -, hrest⟩ := h
    refine List.forall_mem_append.2 ⟨?_, List.forall_mem_cons.2 ⟨by decide, hrest.allowed⟩⟩
    exact fun c hc => (inEscape_of_isNameChar (hname c hc)).2.2.2
  | closed => exact h.elim

/-- A character that is written as it is. -/
def Bare (c : Codepoint) : Prop := c ≠ '"' ∧ c ≠ '\n' ∧ c ≠ '\r'

theorem opens_plain (hchar : c.isChar = true) (hc : Bare c) :
    Opens names .plain (c :: text) decoded ↔ Leads names .plain c text decoded := by
  obtain ⟨hquote, hfeed, hreturn⟩ := hc
  rw [Leads, charStep, plainStep, if_neg hquote]
  by_cases hslash : c = '\\'
  · rw [if_pos hslash, hslash]
    constructor
    · intro h
      exact ⟨[], .slash, decoded, rfl, rfl, h⟩
    · rintro ⟨_, _, _, ⟨⟩, rfl, h⟩
      exact h
  · rw [if_neg hslash, Opens, decodes_plain hslash]
    by_cases hnull : c = '\x00'
    · simp [hnull, Allowed]
    · simp [hfeed, hreturn, hnull, hchar, Allowed, Opens]

/-! ## After a backslash -/

theorem slashStep_letter {d : Codepoint} (h : (c, d) ∈ letterEscapes) :
    slashStep c = some ([d], .plain) := by
  have hall : ∀ p ∈ letterEscapes, slashStep p.1 = some ([p.2], .plain) := by decide
  exact hall _ h

theorem slashStep_number {width : Nat} (h : (c, width) ∈ numberMarks) :
    slashStep c = some ([], .hex width 0) := by
  have hall : ∀ p ∈ numberMarks, slashStep p.1 = some ([], .hex p.2 0) := by decide
  exact hall _ h

theorem max_width {width : Nat} (h : (c, width) ∈ numberMarks) : max width 1 = width := by
  have hall : ∀ p ∈ numberMarks, max p.2 1 = p.2 := by decide
  exact hall _ h

theorem slashStep_octal (h : c.isOctal = true) :
    slashStep c = some ([], .octal 2 (c.toNat - 0x30)) := by
  rw [slashStep, if_pos h]

theorem slashStep_other (h : 0x80 ≤ c.toNat) : slashStep c = some ([.char '\\', c], .plain) := by
  have hne : ∀ d : Codepoint, d.toNat < 0x80 → c ≠ d := by
    rintro d hd rfl
    omega
  have hoctal : c.isOctal = false := by
    rw [Codepoint.isOctal, Bool.and_eq_false_iff]
    refine .inr (decide_eq_false fun hle => ?_)
    have hle' : c.toNat ≤ '7'.toNat := hle
    exact absurd (Nat.le_trans h hle') (by decide)
  rw [slashStep, hoctal, if_neg (hne 'x' (by decide)), if_neg (hne 'u' (by decide)),
    if_neg (hne 'U' (by decide)), if_neg (hne 'N' (by decide)), if_neg (Nat.not_lt.2 h)]
  exact if_neg Bool.false_ne_true

theorem letter?_cases (h : letter? c = some out) :
    (c = '\n' ∨ c = '\r') ∧ out = [] ∨ ∃ d, (c, d) ∈ letterEscapes ∧ out = [d] := by
  unfold letter? at h
  split at h <;> cases h
  · exact .inl ⟨.inl rfl, rfl⟩
  · exact .inl ⟨.inr rfl, rfl⟩
  all_goals exact .inr ⟨_, by simp [letterEscapes], rfl⟩

/-- What the character after a backslash can begin. -/
theorem slashStep_cases (h : slashStep c = some (out, next)) :
    (c.isOctal = true ∧ out = [] ∧ next = .octal 2 (c.toNat - 0x30)) ∨
    (∃ width, (c, width) ∈ numberMarks ∧ out = [] ∧ next = .hex width 0) ∨
    (c = 'N' ∧ out = [] ∧ next = .brace) ∨
    ((c = '\n' ∨ c = '\r') ∧ out = [] ∧ next = .plain) ∨
    (∃ d, (c, d) ∈ letterEscapes ∧ out = [d] ∧ next = .plain) ∨
    (0x80 ≤ c.toNat ∧ out = [.char '\\', c] ∧ next = .plain) := by
  unfold slashStep at h
  split at h
  · next hc =>
    cases h
    exact .inl ⟨hc, rfl, rfl⟩
  split at h
  · next hc =>
    cases h
    exact .inr (.inl ⟨2, by rw [hc]; decide, rfl, rfl⟩)
  split at h
  · next hc =>
    cases h
    exact .inr (.inl ⟨4, by rw [hc]; decide, rfl, rfl⟩)
  split at h
  · next hc =>
    cases h
    exact .inr (.inl ⟨8, by rw [hc]; decide, rfl, rfl⟩)
  split at h
  · next hc =>
    cases h
    exact .inr (.inr (.inl ⟨hc, rfl, rfl⟩))
  split at h
  · obtain ⟨decoded, hletter, heq⟩ := Option.map_eq_some_iff.1 h
    cases heq
    rcases letter?_cases hletter with ⟨hc, rfl⟩ | ⟨d, hc, rfl⟩
    · exact .inr (.inr (.inr (.inl ⟨hc, rfl, rfl⟩)))
    · exact .inr (.inr (.inr (.inr (.inl ⟨d, hc, rfl, rfl⟩))))
  · next hc =>
    cases h
    exact .inr (.inr (.inr (.inr (.inr ⟨Nat.le_of_not_lt hc, rfl, rfl⟩))))

theorem opens_slash (hchar : c.isChar = true) :
    Opens names .slash (c :: text) decoded ↔ Leads names .slash c text decoded := by
  rw [Opens, decodes_slash]
  constructor
  · rintro ⟨out, rest, more, hescape, rfl, hrest⟩
    cases hescape with
    | lineBreak hc => rcases hc with rfl | rfl <;> exact ⟨[], .plain, more, rfl, rfl, hrest⟩
    | letter hc => exact ⟨_, .plain, more, slashStep_letter hc, rfl, hrest⟩
    | @octal _ digits _ hdigits hlength hlast hvalue =>
      rw [octal_cons] at hvalue ⊢
      exact ⟨[], _, _, slashStep_octal (hdigits c List.mem_cons_self), rfl, digits, rest, more, rfl,
        fun d hd => hdigits d (List.mem_cons_of_mem c hd), hlength, hlast, hvalue, rfl, hrest⟩
    | @number _ width digits _ hmark hlength hdigits hvalue =>
      exact ⟨[], _, _, slashStep_number hmark, rfl, digits, rest, more, rfl, hdigits,
        hlength.trans (max_width hmark).symm, hvalue, rfl, hrest⟩
    | @name name _ code hne hname hcode =>
      exact ⟨[], .brace, _, rfl, rfl, name, rest, code, more, rfl, hne, hname, hcode, rfl, hrest⟩
    | other hc => exact ⟨_, .plain, more, slashStep_other hc, rfl, hrest⟩
  · rintro ⟨out, next, more, hstep, rfl, hmore⟩
    rcases slashStep_cases hstep with ⟨hc, rfl, rfl⟩ | ⟨width, hc, rfl, rfl⟩ | ⟨rfl, rfl, rfl⟩ |
      ⟨hc, rfl, rfl⟩ | ⟨code, hc, rfl, rfl⟩ | ⟨hc, rfl, rfl⟩
    · obtain ⟨digits, rest, more, rfl, hdigits, hlength, hlast, hvalue, rfl, hrest⟩ := hmore
      have hoctal : ∀ e ∈ c :: digits, e.isOctal = true := List.forall_mem_cons.2 ⟨hc, hdigits⟩
      rw [← octal_cons] at hvalue ⊢
      exact ⟨_, rest, more, .octal hoctal hlength hlast hvalue, rfl, hrest⟩
    · obtain ⟨digits, rest, more, rfl, hdigits, hlength, hvalue, rfl, hrest⟩ := hmore
      exact ⟨_, rest, more, .number hc (hlength.trans (max_width hc)) hdigits hvalue, rfl, hrest⟩
    · obtain ⟨name, rest, code, more, rfl, hne, hname, hcode, rfl, hrest⟩ := hmore
      exact ⟨_, rest, more, .name hne hname hcode, rfl, hrest⟩
    · exact ⟨_, text, more, .lineBreak hc, rfl, hmore⟩
    · exact ⟨_, text, more, .letter hc, rfl, hmore⟩
    · exact ⟨_, text, more, .other hc hchar, rfl, hmore⟩

/-! ## After a digit or in a name -/

/-- Octal digits that are over. -/
theorem opens_octal_over {left value : Nat}
    (hover : left = 0 ∨ ∀ d ∈ text.head?, d.isOctal = false) :
    Opens names (.octal left value) text decoded ↔
      value ≤ 0xff ∧ ∃ more, decoded = .ofNat value :: more ∧ Decodes names text more := by
  constructor
  · rintro ⟨_ | ⟨d, digits⟩, rest, more, rfl, hdigits, hlength, -, hvalue, rfl, hrest⟩
    · exact ⟨hvalue, more, rfl, hrest⟩
    · rw [List.length_cons] at hlength
      rcases hover with rfl | hover
      · omega
      · have hd := hdigits d List.mem_cons_self
        rw [hover d rfl] at hd
        cases hd
  · rintro ⟨hvalue, more, rfl, htext⟩
    exact ⟨[], text, more, rfl, nofun, Nat.zero_le _, hover.imp_left Eq.symm, hvalue, rfl, htext⟩

theorem opens_octal {left value : Nat} (hchar : c.isChar = true) (hc : Bare c) :
    Opens names (.octal left value) (c :: text) decoded ↔
      Leads names (.octal left value) c text decoded := by
  rw [Leads, charStep, octalStep]
  by_cases hdigit : (c.isOctal && left != 0) = true
  · rw [if_pos hdigit]
    rw [Bool.and_eq_true, bne_iff_ne] at hdigit
    obtain ⟨hoctal, hleft⟩ := hdigit
    constructor
    · rintro ⟨_ | ⟨d, digits⟩, rest, more, htext, hdigits, hlength, hlast, hvalue, rfl, hrest⟩
      · rcases hlast with hlast | hlast
        · exact absurd hlast.symm hleft
        · rw [List.nil_append] at htext
          rw [hlast c (by rw [← htext]; rfl)] at hoctal
          cases hoctal
      · rw [List.cons_append, List.cons.injEq] at htext
        obtain ⟨rfl, rfl⟩ := htext
        rw [List.length_cons] at hlength hlast
        exact ⟨[], _, _, rfl, rfl, digits, rest, more, rfl, fun e he => hdigits e (List.mem_cons_of_mem _ he),
          by omega, hlast.imp_left (by omega), hvalue, rfl, hrest⟩
    · rintro ⟨_, _, _, ⟨⟩, rfl, digits, rest, more, rfl, hdigits, hlength, hlast, hvalue, rfl, hrest⟩
      refine ⟨c :: digits, rest, more, rfl, List.forall_mem_cons.2 ⟨hoctal, hdigits⟩, ?_, ?_, hvalue, rfl, hrest⟩
      · rw [List.length_cons]
        omega
      · rw [List.length_cons]
        exact hlast.imp_left (by omega)
  · -- The digits are over, and the character is one outside the escape.
    have hover : left = 0 ∨ ∀ d ∈ (c :: text).head?, d.isOctal = false := by
      rw [Bool.and_eq_true, bne_iff_ne, not_and, not_not] at hdigit
      by_cases hoctal : c.isOctal = true
      · exact .inl (hdigit hoctal)
      · rw [Bool.not_eq_true] at hoctal
        exact .inr (by simpa using hoctal)
    rw [if_neg hdigit, opens_octal_over hover]
    constructor
    · rintro ⟨hvalue, more, rfl, htext⟩
      obtain ⟨out, next, more, hstep, rfl, hmore⟩ := (opens_plain hchar hc).1 htext
      have hstep' : plainStep '"' c = some (out, next) := hstep
      exact ⟨.ofNat value :: out, next, more, by rw [if_pos hvalue, hstep']; rfl, rfl, hmore⟩
    · rintro ⟨_, next, more, hstep, rfl, hmore⟩
      split at hstep
      · next hvalue =>
        obtain ⟨⟨out, _⟩, hstep, heq⟩ := Option.map_eq_some_iff.1 hstep
        cases heq
        exact ⟨hvalue, out ++ more, rfl, (opens_plain hchar hc).2 ⟨out, next, more, hstep, rfl, hmore⟩⟩
      · cases hstep

theorem opens_hex {left value : Nat} :
    Opens names (.hex left value) (c :: text) decoded ↔ Leads names (.hex left value) c text decoded := by
  rw [Leads, charStep, hexStep]
  constructor
  · rintro ⟨_ | ⟨d, digits⟩, rest, more, htext, hdigits, hlength, hvalue, rfl, hrest⟩
    · rw [List.length_nil] at hlength
      omega
    · rw [List.cons_append, List.cons.injEq] at htext
      obtain ⟨rfl, rfl⟩ := htext
      obtain ⟨n, hn⟩ := Option.isSome_iff_exists.1 (hdigits c List.mem_cons_self)
      rw [List.length_cons] at hlength
      rw [hexFrom_cons hn] at hvalue ⊢
      rw [hn]
      dsimp only
      by_cases hleft : left ≤ 1
      · obtain rfl : digits = [] := List.length_eq_zero_iff.1 (by omega)
        have hvalue' : 16 * value + n ≤ 0x10ffff := hvalue
        exact ⟨_, .plain, more, by rw [if_pos hleft, if_pos hvalue'], rfl, hrest⟩
      · exact ⟨[], _, _, if_neg hleft, rfl, digits, rest, more, rfl,
          fun e he => hdigits e (List.mem_cons_of_mem c he), by omega, hvalue, rfl, hrest⟩
  · rintro ⟨out, next, more, hstep, rfl, hmore⟩
    split at hstep
    · cases hstep
    · next n hn =>
      have hsome : c.hexValue?.isSome = true := by rw [hn]; rfl
      split at hstep
      · next hleft =>
        split at hstep
        · next hvalue =>
          cases hstep
          refine ⟨[c], text, more, rfl, List.forall_mem_singleton.2 hsome, ?_, ?_, ?_, hmore⟩
          · rw [List.length_singleton]
            omega
          · rw [hexFrom_cons hn]
            exact hvalue
          · rw [hexFrom_cons hn]
            rfl
        · cases hstep
      · next hleft =>
        cases hstep
        obtain ⟨digits, rest, more, rfl, hdigits, hlength, hvalue, rfl, hrest⟩ := hmore
        refine ⟨c :: digits, rest, more, rfl, List.forall_mem_cons.2 ⟨hsome, hdigits⟩, ?_, ?_, ?_, hrest⟩
        · rw [List.length_cons]
          omega
        · rw [hexFrom_cons hn]
          exact hvalue
        · rw [hexFrom_cons hn]
          rfl

theorem opens_name {soFar : Text} :
    Opens names (.name soFar) (c :: text) decoded ↔ Leads names (.name soFar) c text decoded := by
  rw [Leads, charStep, nameStep]
  constructor
  · rintro ⟨_ | ⟨d, name⟩, rest, code, more, htext, hne, hname, hcode, rfl, hrest⟩
    · rw [List.nil_append, List.cons.injEq] at htext
      obtain ⟨rfl, rfl⟩ := htext
      rw [List.append_nil] at hne hcode
      exact ⟨[code], .plain, more, by rw [if_pos rfl, if_neg hne, hcode]; rfl, rfl, hrest⟩
    · rw [List.cons_append, List.cons.injEq] at htext
      obtain ⟨rfl, rfl⟩ := htext
      have hc := hname c List.mem_cons_self
      have hbrace : c ≠ '}' := by
        rintro rfl
        cases hc
      rw [List.append_cons] at hne hcode
      exact ⟨[], .name (soFar ++ [c]), code :: more, by rw [if_neg hbrace, if_pos hc], rfl, name, rest, code,
        more, rfl, hne, fun e he => hname e (List.mem_cons_of_mem c he), hcode, rfl, hrest⟩
  · rintro ⟨out, next, more, hstep, rfl, hmore⟩
    split at hstep
    · next hbrace =>
      split at hstep
      · cases hstep
      · next hne =>
        obtain ⟨code, hcode, heq⟩ := Option.map_eq_some_iff.1 hstep
        cases heq
        exact ⟨[], text, code, more, by rw [hbrace]; rfl, by rwa [List.append_nil], List.forall_mem_nil _,
          by rwa [List.append_nil], rfl, hmore⟩
    split at hstep
    · next hc =>
      cases hstep
      obtain ⟨name, rest, code, more, rfl, hne, hname, hcode, rfl, hrest⟩ := hmore
      rw [List.append_assoc, List.singleton_append] at hne hcode
      exact ⟨c :: name, rest, code, more, rfl, hne, List.forall_mem_cons.2 ⟨hc, hname⟩, hcode, rfl, hrest⟩
    · cases hstep

theorem opens_brace :
    Opens names .brace (c :: text) decoded ↔ Leads names .brace c text decoded := by
  rw [Leads, charStep]
  constructor
  · rintro ⟨name, rest, code, more, htext, hne, hname, hcode, rfl, hrest⟩
    obtain ⟨rfl, rfl⟩ := List.cons.inj htext
    exact ⟨[], .name [], _, rfl, rfl, name, rest, code, more, rfl, hne, hname, hcode, rfl, hrest⟩
  · rintro ⟨out, next, more, hstep, rfl, hmore⟩
    split at hstep
    · next hbrace =>
      cases hstep
      obtain ⟨name, rest, code, more, rfl, hne, hname, hcode, rfl, hrest⟩ := hmore
      exact ⟨name, rest, code, more, by rw [hbrace], hne, hname, hcode, rfl, hrest⟩
    · cases hstep

/-- One character leads from what a phase leaves open to what the next phase does. -/
theorem opens_cons (hchar : c.isChar = true) (hc : phase = .slash ∨ Bare c) :
    Opens names phase (c :: text) decoded ↔ Leads names phase c text decoded := by
  cases phase with
  | plain => exact opens_plain hchar (hc.resolve_left nofun)
  | slash => exact opens_slash hchar
  | octal => exact opens_octal hchar (hc.resolve_left nofun)
  | hex => exact opens_hex
  | brace => exact opens_brace
  | name => exact opens_name
  | closed =>
    constructor
    · exact False.elim
    · rintro ⟨_, _, _, ⟨⟩, -⟩

/-! ## Where a character leads -/

theorem plainStep_cases (h : plainStep '"' c = some (out, next)) :
    (c = '"' ∧ next = .closed) ∨ (c = '\\' ∧ next = .slash) ∨ (c ≠ '\\' ∧ next.Outer) := by
  unfold plainStep at h
  split at h
  · next hquote =>
    cases h
    exact .inl ⟨hquote, rfl⟩
  split at h
  · next hslash =>
    cases h
    exact .inr (.inl ⟨hslash, rfl⟩)
  split at h
  · cases h
  · next hslash _ =>
    cases h
    exact .inr (.inr ⟨hslash, trivial⟩)

/-- Only a quote closes a literal, and a backslash is in no escape but the one that it begins. -/
theorem charStep_cases (hphase : phase.Outer) (h : charStep names '"' phase c = some (out, next)) :
    (c = '"' ∧ next = .closed) ∨ (c = '\\' ∧ next = .slash) ∨ (c ≠ '\\' ∧ next.Outer) := by
  cases phase with
  | plain => exact plainStep_cases h
  | slash => exact hphase.elim
  | octal left value =>
    rw [charStep, octalStep] at h
    split at h
    · next hdigit =>
      cases h
      rw [Bool.and_eq_true] at hdigit
      exact .inr (.inr ⟨(inEscape_of_isOctal hdigit.1).1, trivial⟩)
    split at h
    · obtain ⟨⟨_, _⟩, hplain, heq⟩ := Option.map_eq_some_iff.1 h
      cases heq
      exact plainStep_cases hplain
    · cases h
  | hex left value =>
    rw [charStep, hexStep] at h
    split at h
    · cases h
    · next hdigit =>
      have hslash := (inEscape_of_hexValue? (Option.isSome_of_eq_some hdigit)).1
      split at h
      · split at h <;> cases h
        exact .inr (.inr ⟨hslash, trivial⟩)
      · cases h
        exact .inr (.inr ⟨hslash, trivial⟩)
  | brace =>
    rw [charStep] at h
    split at h
    · next hbrace =>
      cases h
      exact .inr (.inr ⟨by rw [hbrace]; decide, trivial⟩)
    · cases h
  | name soFar =>
    rw [charStep, nameStep] at h
    split at h
    · next hbrace =>
      split at h
      · cases h
      · obtain ⟨_, -, heq⟩ := Option.map_eq_some_iff.1 h
        cases heq
        exact .inr (.inr ⟨by rw [hbrace]; decide, trivial⟩)
    split at h
    · next hname =>
      cases h
      exact .inr (.inr ⟨(inEscape_of_isNameChar hname).1, trivial⟩)
    · cases h
  | closed => exact hphase.elim

/-- The character after a backslash neither begins another escape nor closes the literal. -/
theorem slashStep_outer (h : slashStep c = some (out, next)) : next.Outer := by
  rcases slashStep_cases h with ⟨-, -, rfl⟩ | ⟨_, -, -, rfl⟩ | ⟨-, -, rfl⟩ | ⟨-, -, rfl⟩ | ⟨_, -, -, rfl⟩ |
    ⟨-, -, rfl⟩ <;> trivial

/-! ## At a line break -/

/-- A line break with the letter of its escape. -/
def IsBreak (c d : Codepoint) : Prop := c = '\n' ∧ d = 'n' ∨ c = '\r' ∧ d = 'r'

theorem not_leads (h : charStep names '"' phase c = none) : ¬ Leads names phase c text decoded := by
  rintro ⟨out, next, more, hstep, -⟩
  rw [h] at hstep
  cases hstep

/-- A bare line break comes to the same as its escape. -/
theorem opens_lineBreak {d : Codepoint} (hbreak : IsBreak c d) (hphase : phase.Outer) :
    Opens names phase (c :: text) decoded ↔ Opens names phase (.char '\\' :: d :: text) decoded := by
  have hletter : slashStep d = some ([c], .plain) := by
    rcases hbreak with ⟨rfl, rfl⟩ | ⟨rfl, rfl⟩ <;> rfl
  have hc : c ≠ '\\' ∧ Allowed c ∧ d.isChar = true := by
    rcases hbreak with ⟨rfl, rfl⟩ | ⟨rfl, rfl⟩ <;> decide
  have hplain : ∀ decoded, Decodes names (c :: text) decoded ↔
      Decodes names (.char '\\' :: d :: text) decoded := by
    intro decoded
    have hslash : Decodes names (.char '\\' :: d :: text) decoded ↔ Leads names .slash d text decoded :=
      opens_slash hc.2.2
    rw [hslash, Leads, charStep, hletter, decodes_plain hc.1]
    simp [hc.2.1, Opens]
  -- In the middle of digits or of a name neither of them can come next.
  have hneither : (∀ c text, Opens names phase (c :: text) decoded ↔ Leads names phase c text decoded) →
      charStep names '"' phase c = none → charStep names '"' phase '\\' = none →
      (Opens names phase (c :: text) decoded ↔ Opens names phase (.char '\\' :: d :: text) decoded) := by
    intro hleads hnone hnone'
    rw [hleads, hleads]
    exact iff_of_false (not_leads hnone) (not_leads hnone')
  cases phase with
  | plain => exact hplain decoded
  | slash => exact hphase.elim
  | octal left value =>
    have hover : ∀ d ∈ (c :: text).head?, d.isOctal = false := by
      rcases hbreak with ⟨rfl, -⟩ | ⟨rfl, -⟩ <;> rintro _ ⟨⟩ <;> rfl
    have hover' : ∀ e ∈ (.char '\\' :: d :: text).head?, e.isOctal = false := by
      rintro _ ⟨⟩
      rfl
    rw [opens_octal_over (.inr hover), opens_octal_over (.inr hover')]
    simp only [hplain]
  | hex left value => exact hneither (fun _ _ => opens_hex) (by rcases hbreak with ⟨rfl, -⟩ | ⟨rfl, -⟩ <;> rfl) rfl
  | brace => exact hneither (fun _ _ => opens_brace) (by rcases hbreak with ⟨rfl, -⟩ | ⟨rfl, -⟩ <;> rfl) rfl
  | name soFar => exact hneither (fun _ _ => opens_name) (by rcases hbreak with ⟨rfl, -⟩ | ⟨rfl, -⟩ <;> rfl) rfl
  | closed => exact hphase.elim

end Pegboard.Literal
