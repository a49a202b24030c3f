import Pegboard.Proofs.Regex.Extent
import Pegboard.Proofs.Regex.Greedy
import Pegboard.Proofs.Syntax.Token

/-!
# The engine reads the tokens

The engine of the program reads each of the six patterns of the definition language as a
tree, and a match of that tree is the scan of the pattern.

The pattern of quoted texts is the one with an inner loop.  Its runs of plain characters
end where a quote or a backslash stands, and neither is plain, so no shorter run can go on.
-/

namespace Pegboard.Syntax

open Regex

/-! ## Trees -/

/-- Any number of characters of a set. -/
def star (set : CharSet) : Re Nat := .loop (.one set) 0 none .greedy

/-- A backslash with what it escapes, and plain characters. -/
def escapeRe : Re Nat := .seq (.one backslash) (.seq (.one anyChar) (star plain))

/-- A quoted text. -/
def quotedRe : Re Nat :=
  .seq (.one quote) (.seq (star plain) (.seq (.loop escapeRe 0 none .greedy) (.one quote)))

/-- What the engine reads a pattern as. -/
theorem matchLength?_of_read {p : Pattern} {re : Re Nat} (h : read? p.source p.flags = some re)
    (text : Text) :
    @Pattern.matchLength? Platform.builtIn p text = re.matchLength? text := by
  change (read? p.source p.flags).bind (·.matchLength? text) = _
  rw [h, Option.bind_some]

/-! ## What the trees match -/

theorem matchLength?_star (set : CharSet) (text : Text) :
    (star set).matchLength? text = some (runLength set text) := by
  rw [Re.matchLength?, star, Re.run_star_some, Option.map_some]
  simp [State.start, Regex.run, runLength]

theorem matchLength?_one (set : CharSet) (text : Text) :
    (Re.one set).matchLength? text = oneLength? set text := by
  rw [Re.matchLength?, Re.run_one]
  cases text with
  | nil => rfl
  | cons c text =>
    simp only [State.start, oneLength?]
    split <;> rfl

theorem matchLength?_one_star (first rest : CharSet) (text : Text) :
    (Re.seq (.one first) (star rest)).matchLength? text = headLength? first rest text := by
  rw [Re.matchLength?, Re.run_seq, Re.run_one]
  cases text with
  | nil => rfl
  | cons c text =>
    simp only [State.start, headLength?]
    split
    · rw [star, Re.run_star_some, State.skip_skip, Option.map_some]
      simp [State.skip, Regex.run, runLength, Nat.add_comm]
    · rfl

theorem matchLength?_plus (set : CharSet) (text : Text) :
    (Re.loop (.one set) 1 none .greedy).matchLength? text = plusLength? set text := by
  have hrun : Regex.run set (.start text) = runLength set text := rfl
  rw [Re.matchLength?, Re.run_plus_some, hrun, plusLength?]
  split
  · rfl
  · rw [Option.map_some, State.skip_pos, State.start, Nat.zero_add]

/-! ## Quoted texts -/

/-- How much is left of a quoted text where a quote or a backslash has to stand. -/
def stopLength? : Text → Option Nat
  | .char '"' :: _ => some 1
  | .char '\\' :: _ :: s => (bodyLength? s).map (· + 2)
  | _ => none

theorem stopLength?_plain {c : Codepoint} (hc : plain.holds c = true) (s : Text) :
    stopLength? (c :: s) = none := by
  simp only [holds_plain, decide_eq_true_eq] at hc
  rw [stopLength?.eq_def]
  split
  · next heq => exact absurd (List.cons.inj heq).1 hc.1
  · next heq => exact absurd (List.cons.inj heq).1 hc.2
  · rfl

/-- The plain characters before a quote or a backslash are part of the body. -/
theorem bodyLength?_eq (s : Text) :
    bodyLength? s = (stopLength? (s.dropWhile plain.holds)).map
      (· + (s.takeWhile plain.holds).length) := by
  induction s with
  | nil => rfl
  | cons c s ih =>
    rw [List.dropWhile_cons, List.takeWhile_cons]
    by_cases hc : plain.holds c = true
    · rw [if_pos hc, if_pos hc, bodyLength?, scanBody_plain hc, List.length_cons]
      rw [bodyLength?] at ih
      have ih' := congrArg (Option.map (· + 1)) ih
      rw [Option.map_map, Option.map_map] at ih'
      rw [Option.map_map]
      exact ih'
    · rw [if_neg hc, if_neg hc]
      rcases not_plain hc with rfl | rfl
      · rw [bodyLength?, scanBody_quote]
        rfl
      · cases s with
        | nil => rfl
        | cons d s =>
          rw [bodyLength?, scanBody_escape, stopLength?, bodyLength?, Option.map_map, Option.map_map,
            Option.map_map]
          rfl

theorem drop_lt_takeWhile {p : Codepoint → Bool} :
    ∀ {s : Text} {j : Nat}, j < (s.takeWhile p).length →
      ∃ c rest, s.drop j = c :: rest ∧ p c = true
  | [], j, h => by simp at h
  | c :: s, j, h => by
    rw [List.takeWhile_cons] at h
    split at h
    · next hc =>
      cases j with
      | zero => exact ⟨c, s, rfl, hc⟩
      | succ j => exact @drop_lt_takeWhile p s j (by simpa using h)
    · simp at h

theorem drop_length_takeWhile (p : Codepoint → Bool) (s : Text) :
    s.drop (s.takeWhile p).length = s.dropWhile p := by
  have h := congrArg (List.drop (s.takeWhile p).length) (@List.takeWhile_append_dropWhile _ p s)
  rw [List.drop_left] at h
  exact h.symm

/-- A run of plain characters goes up to a quote or a backslash, if what follows needs one. -/
theorem run_plain {s : State} {k : Following}
    (hk : ∀ n ≤ s.after.length, k (s.skip n) =
      (stopLength? (s.after.drop n)).map fun m => (s.skip n).skip m) :
    (star plain).run false s k = (bodyLength? s.after).map fun m => s.skip m := by
  have hle : Regex.run plain s ≤ s.after.length := (List.takeWhile_prefix _).length_le
  have hreject : ∀ j < Regex.run plain s, k (s.skip j) = none := by
    intro j hj
    obtain ⟨c, rest, hdrop, hc⟩ := drop_lt_takeWhile hj
    rw [hk j (by omega), hdrop, stopLength?_plain hc]
    rfl
  rw [star, Re.run_greedy, rounds_one_of_reject s.after 0 s (Nat.le_refl _) (Nat.le_refl _) hreject,
    hk _ hle, bodyLength?_eq, Option.map_map, Regex.run, drop_length_takeWhile]
  congr 1
  funext m
  rw [State.skip_skip]
  exact congrArg (s.skip ·) (Nat.add_comm _ _)

/-- What follows the loop of escapes in a quoted text. -/
def closingQuote : Following := fun t => (Re.one quote).run false t some

theorem closingQuote_nil {s : State} (h : s.after = []) : closingQuote s = none := Re.run_one_nil h some

theorem closingQuote_cons {s : State} {c : Codepoint} {rest : Text} (h : s.after = c :: rest) :
    closingQuote s = if c = '"' then some (s.skip 1) else none := by
  rw [closingQuote, Re.run_one_cons h, holds_quote]
  simp only [decide_eq_true_eq]

theorem run_escapeRe (s : State) (k : Following) :
    escapeRe.run false s k = (Re.one backslash).run false s fun t =>
      (Re.one anyChar).run false t fun u => (star plain).run false u k := by
  simp only [escapeRe, Re.run_seq]

/-- The loop of escapes starts at a backslash and ends before the closing quote. -/
theorem rounds_escape : ∀ (ahead : Text) (count : Nat) (s : State), s.after.length ≤ ahead.length →
    rounds (escapeRe.run false) false 0 none closingQuote ahead count s =
      (stopLength? s.after).map fun m => s.skip m
  | [], count, s, hahead => by
    have hnil : s.after = [] := by simpa using hahead
    rw [rounds, round_greedy, run_escapeRe, Re.run_one_nil hnil, closingQuote_nil hnil, hnil]
    rfl
  | _ :: ahead, count, s, hahead => by
    rw [rounds, round_greedy]
    rcases hafter : s.after with _ | ⟨c, rest⟩
    · rw [run_escapeRe, Re.run_one_nil hafter, closingQuote_nil hafter]
      rfl
    · by_cases hc : c = '\\'
      · subst hc
        have hclosing : closingQuote s = none := by rw [closingQuote_cons hafter, if_neg (by decide)]
        rw [run_escapeRe, Re.run_one_cons hafter, holds_backslash, if_pos (by decide), hclosing]
        have hafter' : (s.skip 1).after = rest := by rw [State.skip_after, hafter]; rfl
        rcases rest with _ | ⟨d, rest⟩
        · rw [Re.run_one_nil hafter']
          rfl
        · -- The plain characters after the escape, and the rest of the loop.
          have htwo : (s.skip 2).after = rest := by rw [State.skip_after, hafter]; rfl
          rw [Re.run_one_cons hafter', holds_anyChar, if_pos rfl, State.skip_skip, run_plain, htwo]
          · rw [stopLength?, Option.map_map]
            rcases bodyLength? rest with _ | m
            · rfl
            · simp only [Option.map_some, Option.orElse_some, Function.comp_apply, State.skip_skip,
                Nat.add_comm 2]
          · intro n hn
            have hmoved : ((s.skip (1 + 1)).skip n).pos ≠ s.pos := by
              simp only [State.skip_pos]
              omega
            rw [if_neg hmoved, rounds_escape ahead (count + 1) _ ?_, State.skip_after]
            simp only [State.skip_after, List.length_drop]
            rw [List.length_cons] at hahead
            omega
      · have hbody : escapeRe.run false s (fun t => if t.pos = s.pos then closingQuote t
            else rounds (escapeRe.run false) false 0 none closingQuote ahead (count + 1) t) = none := by
          rw [run_escapeRe, Re.run_one_cons hafter, holds_backslash, if_neg (by simpa using hc)]
        rw [hbody, closingQuote_cons hafter, Option.orElse_none]
        by_cases hquote : c = '"'
        · subst hquote
          rfl
        · rw [if_neg hquote, stopLength?_plain (by simp [hc, hquote])]
          rfl

/-- The pattern of quoted texts matches up to the closing quote. -/
theorem matchLength?_quotedRe (text : Text) : quotedRe.matchLength? text = quotedLength? text := by
  rw [Re.matchLength?, quotedRe, Re.run_seq]
  cases text with
  | nil => rfl
  | cons c text =>
    rw [Re.run_one_cons rfl, holds_quote, quotedLength?]
    by_cases hc : c = '"'
    · rw [if_pos (by simpa using hc), if_pos hc, Re.run_seq, run_plain, Option.map_map]
      · refine congrArg (Option.map · (bodyLength? text)) (funext fun m => ?_)
        simp [State.start, Nat.add_comm]
      · intro n _
        rw [Re.run_seq, Re.run_greedy, State.skip_after]
        exact rounds_escape _ _ _ (Nat.le_refl _)
    · rw [if_neg (by simpa using hc), if_neg hc]
      rfl

/-! ## The platform of the program -/

attribute [local instance] Platform.builtIn

instance : Platform.ReadsTokens where
  accepted := by
    have hread : ∀ p ∈ tokenPatterns, (read? p.source p.flags).isSome = true := by decide +kernel
    exact hread
  label text :=
    (matchLength?_of_read (by decide +kernel) text).trans (matchLength?_one_star labelStart labelRest text)
  spaces text := (matchLength?_of_read (by decide +kernel) text).trans (matchLength?_plus space text)
  comment text := (matchLength?_of_read (by decide +kernel) text).trans (matchLength?_one_star hash unbroken text)
  quantifier text := (matchLength?_of_read (by decide +kernel) text).trans (matchLength?_one quantifierSet text)
  flags text := (matchLength?_of_read (by decide +kernel) text).trans (matchLength?_star flagLetter text)
  quoted text := (matchLength?_of_read (by decide +kernel) text).trans (matchLength?_quotedRe text)

end Pegboard.Syntax
