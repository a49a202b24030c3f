import Pegboard.Proofs.Syntax.Printing

/-!
# The tokens of a definition text

A definition text splits into tokens by longest match.  Layout is skipped as far as it goes,
and then the longest token is taken that the text starts with.  `Lexes` says just this, and
nothing about how the longest one is found.

The readers find it.  The first character decides the kind of a token, and a token of that
kind is read as far as it goes, so what `readToken` takes is the longest one
(`longest_token`).  `readLayout` takes the longest layout (`longest_readLayout`).  A comment
may hold blanks and hashes, so a layout can be cut into blanks in several ways, but no way
gets past the one that takes every comment to the end of its line.
-/

namespace Pegboard.Syntax

open Regex

/-! ## Tokens -/

/-- A sign of one character. -/
inductive Sign where
  | equals
  | slash
  | negation
  | lookahead
  | opening
  | closing
  | quantifier (quantifier : Quantifier)

namespace Sign

def symbol : Sign → Codepoint
  | equals => '='
  | slash => '/'
  | negation => '!'
  | lookahead => '&'
  | opening => '('
  | closing => ')'
  | quantifier q => q.symbol

/-- The sign of a character. -/
def ofChar? : Codepoint → Option Sign
  | .char '=' => some equals
  | .char '/' => some slash
  | .char '!' => some negation
  | .char '&' => some lookahead
  | .char '(' => some opening
  | .char ')' => some closing
  | .char '?' => some (quantifier .optional)
  | .char '*' => some (quantifier .star)
  | .char '+' => some (quantifier .plus)
  | _ => none

theorem ofChar?_symbol (g : Sign) : ofChar? g.symbol = some g := by
  cases g with
  | quantifier q => cases q <;> rfl
  | _ => rfl

theorem symbol_of_ofChar? {c : Codepoint} {g : Sign} (h : ofChar? c = some g) : c = g.symbol := by
  unfold ofChar? at h
  split at h <;> cases h <;> rfl

/-- A sign is no blank, no letter, and opens neither a comment, a literal nor a pattern. -/
theorem symbol_distinct (g : Sign) : space.holds g.symbol = false ∧ labelStart.holds g.symbol = false ∧
    g.symbol ≠ '#' ∧ g.symbol ≠ '"' ∧ g.symbol ≠ '~' := by
  cases g with
  | quantifier q => cases q <;> decide
  | _ => decide

end Sign

/-- A token of the definition language. -/
inductive Token where
  | label (label : Label)
  | literal (quoted : Quoted)
  | regex (quoted : Quoted) (flags : FlagText)
  | sign (sign : Sign)

def Token.text : Token → Text
  | label l => l.text
  | literal q => q.text
  | regex q flags => .char '~' :: (q.text ++ flags.text)
  | sign g => [g.symbol]

/-- A token, and whether there is layout after it. -/
structure Lexeme where
  /-- The token. -/
  token : Token
  /-- Whether layout follows. -/
  spaced : Bool

/-! ## Longest match -/

/-- Of all that a text starts with, this is the longest. -/
structure Longest {α : Type} (text : α → Text) (s : Text) (a : α) (rest : Text) : Prop where
  /-- The text starts with it. -/
  starts : s = text a ++ rest
  /-- The text starts with nothing that is longer. -/
  longest : ∀ b rest', s = text b ++ rest' → (text b).length ≤ (text a).length

theorem Longest.unique {α : Type} {text : α → Text} {s rest rest' : Text} {a b : α}
    (h : Longest text s a rest) (h' : Longest text s b rest') : text a = text b ∧ rest = rest' :=
  List.append_inj (h.starts.symm.trans h'.starts)
    (Nat.le_antisymm (h'.longest a rest h.starts) (h.longest b rest' h'.starts))

/-- A text that starts with no layout splits into tokens. -/
inductive Lexes : Text → List Lexeme → Prop where
  | nil : Lexes [] []
  | cons {s s' rest : Text} {t : Token} {after : Layout} {ls : List Lexeme}
      (token : Longest Token.text s t s') (layout : Longest Layout.text s' after rest)
      (more : Lexes rest ls) : Lexes s (⟨t, !(Layout.text after).isEmpty⟩ :: ls)

/-- A text splits into tokens, with layout before them and between them. -/
def Lexed (s : Text) (ls : List Lexeme) : Prop :=
  ∃ before rest, Longest Layout.text s before rest ∧ Lexes rest ls

/-! ## The longest token -/

/-- A token is read from a text. -/
def Token.Reads : Token → Text → Text → Prop
  | label l, s, rest => readLabel s = some (l, rest)
  | literal q, s, rest => readQuoted s = some (q, rest)
  | regex q flags, s, rest =>
    ∃ s' s'', s = .char '~' :: s' ∧ readQuoted s' = some (q, s'') ∧ readFlags s'' = (flags, rest)
  | sign g, s, rest => s = g.symbol :: rest

/-- Reads the token that its first character is the start of. -/
def readToken : Text → Option (Token × Text)
  | [] => none
  | c :: s =>
    if c = '"' then (readQuoted (c :: s)).map fun (q, rest) => (.literal q, rest)
    else if c = '~' then
      (readQuoted s).map fun (q, rest) => (.regex q (readFlags rest).1, (readFlags rest).2)
    else
      match Sign.ofChar? c with
      | some g => some (.sign g, s)
      | none => (readLabel (c :: s)).map fun (l, rest) => (.label l, rest)

theorem Token.Reads.text {s rest : Text} {t : Token} (h : t.Reads s rest) : s = t.text ++ rest := by
  match t, h with
  | .label l, h => exact readLabel_text h
  | .literal q, h => exact readQuoted_text h
  | .regex q flags, ⟨s', s'', hs, hquoted, hflags⟩ =>
    have hs'' := readFlags_text s''
    rw [hflags] at hs''
    rw [hs, readQuoted_text hquoted, hs'', Token.text, List.cons_append, List.append_assoc]
  | .sign g, h => exact h

/-- The first character of a token decides its kind, so tokens are read as they are. -/
theorem Token.Reads.readToken {s rest : Text} {t : Token} (h : t.Reads s rest) :
    readToken s = some (t, rest) := by
  have hs := h.text
  match t, h with
  | .label l, h =>
    have hfirst : ∀ c, labelStart.holds c = false → l.first ≠ c :=
      fun c => ne_of_labelStart l.first_ok
    have hsign : Sign.ofChar? l.first = none := by
      rcases hg : Sign.ofChar? l.first with _ | g
      · rfl
      · exact absurd (Sign.symbol_of_ofChar? hg) (hfirst _ g.symbol_distinct.2.1)
    rw [Token.text, Label.text, List.cons_append] at hs
    have hlabel : readLabel s = some (l, rest) := h
    rw [hs] at hlabel ⊢
    rw [Syntax.readToken, if_neg (hfirst _ rfl), if_neg (hfirst _ rfl), hsign]
    dsimp only
    rw [hlabel]
    rfl
  | .literal q, h =>
    have hquoted : readQuoted s = some (q, rest) := h
    rw [Token.text, Quoted.text, List.cons_append] at hs
    rw [hs] at hquoted ⊢
    rw [Syntax.readToken, if_pos rfl, hquoted]
    rfl
  | .regex q flags, ⟨s', s'', hs, hquoted, hflags⟩ =>
    rw [hs, Syntax.readToken, if_neg (by decide), if_pos rfl, hquoted, Option.map_some]
    dsimp only
    rw [hflags]
  | .sign g, h =>
    obtain ⟨-, -, -, hquote, htilde⟩ := g.symbol_distinct
    rw [hs, Token.text, List.singleton_append, Syntax.readToken, if_neg hquote, if_neg htilde,
      Sign.ofChar?_symbol]

/-- A token that ends a text is read. -/
theorem Token.reads_text : (t : Token) → t.Reads t.text []
  | .label l => by
    have h : readLabel (l.text ++ []) = some (l, []) := readLabel_append l nofun
    rwa [List.append_nil] at h
  | .literal q => by
    have h := readQuoted_append q []
    rwa [List.append_nil] at h
  | .regex q flags => by
    have h : readFlags (flags.text ++ []) = (flags, []) := readFlags_append flags nofun
    rw [List.append_nil] at h
    exact ⟨_, flags.text, rfl, readQuoted_append q flags.text, h⟩
  | .sign g => rfl

/-- Where a text starts with a token, one at least as long is read. -/
theorem Token.exists_reads (t : Token) (rest : Text) :
    ∃ (t' : Token) (rest' : Text), t'.Reads (t.text ++ rest) rest' ∧ t.text.length ≤ t'.text.length := by
  match t with
  | .label l =>
    refine ⟨.label ⟨l.first, (l.rest ++ rest).takeWhile labelRest.holds, l.first_ok,
      fun _ => takeWhile_ok⟩, (l.rest ++ rest).dropWhile labelRest.holds, ?_, ?_⟩
    · rw [Token.text, Label.text, List.cons_append]
      exact dif_pos l.first_ok
    · simp only [Token.text, Label.text, List.takeWhile_append_of_pos l.rest_ok, List.length_cons,
        List.length_append]
      omega
  | .literal q => exact ⟨.literal q, rest, readQuoted_append q rest, Nat.le_refl _⟩
  | .regex q flags =>
    have hstarts : Token.text (.regex q flags) ++ rest = .char '~' :: (q.text ++ (flags.text ++ rest)) := by
      rw [Token.text, List.cons_append, List.append_assoc]
    refine ⟨.regex q (readFlags (flags.text ++ rest)).1, (readFlags (flags.text ++ rest)).2,
      ⟨_, _, hstarts, readQuoted_append q _, rfl⟩, ?_⟩
    simp only [Token.text, readFlags, List.takeWhile_append_of_pos flags.ok, List.length_cons,
      List.length_append]
    omega
  | .sign g => exact ⟨.sign g, rest, rfl, Nat.le_refl _⟩

/-- The longest token is the one that is read. -/
theorem longest_token {s rest : Text} {t : Token} :
    Longest Token.text s t rest ↔ t.Reads s rest := by
  constructor
  · rintro ⟨rfl, hlongest⟩
    obtain ⟨t', rest', hreads, hlength⟩ := t.exists_reads rest
    obtain ⟨htext, hrest⟩ := List.append_inj hreads.text
      (Nat.le_antisymm hlength (hlongest t' rest' hreads.text))
    -- both tokens are read from the same text, so they are the same token
    have hsame := t'.reads_text.readToken
    rw [← htext, t.reads_text.readToken] at hsame
    cases hsame
    rwa [hrest] at hreads ⊢
  · intro h
    refine ⟨h.text, fun b rest' hb => ?_⟩
    obtain ⟨t', rest'', hreads, hlength⟩ := b.exists_reads rest'
    rw [← hb] at hreads
    have hsame := hreads.readToken
    rw [h.readToken] at hsame
    cases hsame
    exact hlength

/-- No token starts with layout. -/
theorem Token.Reads.readBlank {s rest : Text} {t : Token} (h : t.Reads s rest) : readBlank s = none := by
  have hs := h.text
  match t with
  | .label l =>
    rw [hs]
    exact StartsTerm.readBlank (.inl l.first_ok) _
  | .literal q =>
    rw [hs]
    exact StartsTerm.readBlank (.inr (by decide)) _
  | .regex q flags =>
    rw [hs]
    exact StartsTerm.readBlank (.inr (by decide)) _
  | .sign g =>
    rw [hs]
    exact readBlank_sign g.symbol_distinct.1 g.symbol_distinct.2.2.1 _

/-! ## The longest layout -/

theorem readLayout_step {s rest : Text} {b : Blank} (h : readBlank s = some (b, rest)) :
    (readLayout s).2 = (readLayout rest).2 := by
  rw [readLayout, many_cons readBlank_text Blank.text_ne_nil h, readLayout]

/-- White space before layout is part of it. -/
theorem readLayout_space {c : Codepoint} (hc : space.holds c = true) (s : Text) :
    (readLayout (c :: s)).2 = (readLayout s).2 := by
  have hfirst : ∀ {c : Codepoint} {s : Text}, space.holds c = true →
      (readLayout (c :: s)).2 = (readLayout (s.dropWhile space.holds)).2 := by
    intro c s hc
    exact readLayout_step (by rw [readBlank, dif_pos hc])
  rw [hfirst hc]
  cases s with
  | nil => rfl
  | cons d s =>
    rw [List.dropWhile_cons]
    split
    · next hd => rw [hfirst hd]
    · rfl

/-- A comment before layout is part of it. -/
theorem readLayout_hash (s : Text) :
    (readLayout (.char '#' :: s)).2 = (readLayout (s.dropWhile unbroken.holds)).2 :=
  readLayout_step (by rw [readBlank, dif_neg (by decide), if_pos rfl])

theorem length_readLayout_le (s : Text) : (readLayout s).2.length ≤ s.length := by
  have hlength := congrArg List.length (readLayout_text s)
  rw [List.length_append] at hlength
  omega

/-- What is left of a comment, with the layout after it, goes as far as layout does. -/
theorem readLayout_unbroken (s : Text) :
    (readLayout (s.dropWhile unbroken.holds)).2.length ≤ (readLayout s).2.length := by
  induction s with
  | nil => exact Nat.le_refl _
  | cons c s ih =>
    rw [List.dropWhile_cons]
    split
    · by_cases hspace : space.holds c = true
      · rwa [readLayout_space hspace]
      · by_cases hhash : c = '#'
        · exact Nat.le_of_eq (by rw [hhash, readLayout_hash])
        · -- no layout starts here, so it is no shorter than the whole
          have hnone : readLayout (c :: s) = ([], c :: s) :=
            readLayout_of_none (readBlank_sign (Bool.not_eq_true _ ▸ hspace) hhash s)
          have hdrop := (List.dropWhile_sublist unbroken.holds (l := s)).length_le
          have hle := length_readLayout_le (s.dropWhile unbroken.holds)
          rw [hnone, List.length_cons]
          omega
    · exact Nat.le_refl _

/-- No layout goes further than the one that is read. -/
theorem length_readLayout_append (layout : Layout) (rest : Text) :
    (readLayout (Layout.text layout ++ rest)).2.length ≤ rest.length := by
  induction layout with
  | nil => exact length_readLayout_le rest
  | cons b layout ih =>
    rw [Layout.text, List.flatMap_cons, ← Layout.text, List.append_assoc]
    generalize Layout.text layout ++ rest = s at ih ⊢
    refine Nat.le_trans ?_ ih
    cases b with
    | spaces first more ok =>
      rw [Blank.text]
      generalize first :: more = run at ok
      induction run with
      | nil => exact Nat.le_refl _
      | cons c run ihrun =>
        rw [List.cons_append, readLayout_space (ok c List.mem_cons_self)]
        exact ihrun fun d hd => ok d (List.mem_cons_of_mem c hd)
    | comment more ok =>
      rw [Blank.text, List.cons_append, readLayout_hash, List.dropWhile_append_of_pos ok]
      exact readLayout_unbroken s

/-- The longest layout is the one that is read. -/
theorem longest_readLayout (s : Text) : Longest Layout.text s (readLayout s).1 (readLayout s).2 where
  starts := readLayout_text s
  longest layout rest h := by
    have hle := length_readLayout_append layout rest
    have hlength := congrArg List.length (readLayout_text s)
    have hlength' := congrArg List.length h
    rw [← h] at hle
    rw [List.length_append] at hlength hlength'
    omega

/-! ## Splitting, by the readers -/

/-- The lexeme of a token before a text. -/
def Token.before (t : Token) (s : Text) : Lexeme := ⟨t, !(Layout.text (readLayout s).1).isEmpty⟩

theorem Token.Reads.lexes {s s' : Text} {t : Token} {ls : List Lexeme} (h : t.Reads s s')
    (hrest : Lexes (readLayout s').2 ls) : Lexes s (t.before s' :: ls) :=
  .cons (longest_token.2 h) (longest_readLayout s') hrest

/-- What splits into tokens starts with the first of them. -/
theorem Lexes.reads {s : Text} {l : Lexeme} {ls : List Lexeme} (h : Lexes s (l :: ls)) :
    ∃ s', l.token.Reads s s' ∧ l = l.token.before s' ∧ Lexes (readLayout s').2 ls := by
  cases h with
  | @cons _ s' rest t after _ token layout more =>
    obtain ⟨htext, hrest⟩ := layout.unique (longest_readLayout s')
    refine ⟨s', longest_token.1 token, ?_, hrest ▸ more⟩
    rw [Token.before, htext]

/-- What splits into no tokens is empty. -/
theorem Lexes.eq_nil {s : Text} (h : Lexes s []) : s = [] := by
  cases h
  rfl

theorem lexed_iff {s : Text} {ls : List Lexeme} : Lexed s ls ↔ Lexes (readLayout s).2 ls := by
  constructor
  · rintro ⟨before, rest, hlongest, h⟩
    exact (hlongest.unique (longest_readLayout s)).2 ▸ h
  · intro h
    exact ⟨_, _, longest_readLayout s, h⟩

end Pegboard.Syntax
