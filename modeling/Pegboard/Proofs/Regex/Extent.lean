import Pegboard.Regex.Engine

/-!
# How far a pattern matches

A match of a pattern never runs past the text it is given.  The reason is a
property of states, `State.Within text`: the characters before the place and those
after it make up the text, and the place is counted by the former.  Every step of
the matcher keeps it, backwards as well as forwards, so `Re.run` does, whatever
follows in the match.
-/

namespace Pegboard.Regex

/-- The state stands inside a text: what is before and after its place makes up the
text, and the place is counted right. -/
def State.Within (text : Text) (s : State) : Prop :=
  s.before.reverse ++ s.after = text ∧ s.pos = s.before.length

/-- What follows in a match keeps a property of states if it leads from states that
have it only to states that have it. -/
def Keeps (P : State → Prop) (k : Following) : Prop :=
  ∀ s t, P s → k s = some t → P t

theorem keeps_some (P : State → Prop) : Keeps P some := by
  intro s t hs h
  cases h
  exact hs

/-! ## Single steps -/

namespace State.Within

variable {text : Text} {s t : State}

theorem start (text : Text) : State.Within text (State.start text) := by
  simp [State.Within, State.start]

theorem next {backward : Bool} {c : Codepoint} (hs : s.Within text)
    (h : s.next? backward = some (c, t)) : t.Within text := by
  obtain ⟨hsplit, hpos⟩ := hs
  cases backward with
  | false =>
    cases ha : s.after with
    | nil => simp [State.next?, ha] at h
    | cons d rest =>
      simp only [State.next?, ha, Option.some.injEq, Prod.mk.injEq] at h
      obtain ⟨rfl, rfl⟩ := h
      rw [ha] at hsplit
      exact ⟨by simpa using hsplit, by simp [hpos]⟩
  | true =>
    cases hb : s.before with
    | nil => simp [State.next?, hb] at h
    | cons d rest =>
      simp only [State.next?, hb, Option.some.injEq, Prod.mk.injEq] at h
      obtain ⟨rfl, rfl⟩ := h
      rw [hb] at hsplit hpos
      exact ⟨by simpa using hsplit, by simp [hpos]⟩

theorem withKept (hs : s.Within text) (kept : List (Nat × Text)) :
    State.Within text { s with kept := kept } := hs

theorem keep (hs : s.Within text) (number : Nat) (former : State) :
    (s.keep number former).Within text := hs

theorem past {same : Codepoint → Codepoint → Bool} {backward : Bool} :
    ∀ {piece : Text} {s : State}, s.Within text →
      State.past? same backward piece s = some t → t.Within text
  | [], s, hs, h => by
    cases h
    exact hs
  | c :: piece, s, hs, h => by
    simp only [State.past?] at h
    split at h
    · cases h
    · next d s' hn =>
      split at h
      · exact past (hs.next hn) h
      · cases h

end State.Within

/-! ## Loops -/

section Loops

variable {P : State → Prop} {body : State → Following → Option State} {lazy : Bool}
  {least : Nat} {most : Option Nat} {done : Following}

theorem keeps_round (hb : ∀ k, Keeps P k → Keeps P (body · k)) (hd : Keeps P done)
    {again : Following} (ha : Keeps P again) (count : Nat) :
    Keeps P (round body lazy least most done again count) := by
  intro s t hs h
  have hmore : (if most.any (· ≤ count) then none
      else body s fun u => if u.pos = s.pos then done u else again u) = some t → P t := by
    intro hm
    split at hm
    · cases hm
    · refine hb _ ?_ s t hs hm
      intro u v hu hv
      dsimp only at hv
      split at hv
      · exact hd u v hu hv
      · exact ha u v hu hv
  have hstop : (if count < least then none else done s) = some t → P t := by
    intro hm
    split at hm
    · cases hm
    · exact hd s t hs hm
  cases lazy with
  | true =>
    simp only [round, if_true, Option.orElse_eq_or] at h
    rcases Option.or_eq_some_iff.1 h with h | ⟨-, h⟩
    · exact hstop h
    · exact hmore h
  | false =>
    simp only [round, Bool.false_eq_true, if_false, Option.orElse_eq_or] at h
    rcases Option.or_eq_some_iff.1 h with h | ⟨-, h⟩
    · exact hmore h
    · exact hstop h

theorem keeps_rounds (hb : ∀ k, Keeps P k → Keeps P (body · k)) (hd : Keeps P done) :
    ∀ (ahead : Text) (count : Nat), Keeps P (rounds body lazy least most done ahead count)
  | [], count => keeps_round hb hd (by intro s t _ h; cases h) count
  | _ :: ahead, count => keeps_round hb hd (keeps_rounds hb hd ahead (count + 1)) count

end Loops

/-! ## Patterns -/

/-- A run stays inside the text as long as what follows does. -/
theorem Re.keeps_run {text : Text} : ∀ (re : Re Nat) (backward : Bool) (k : Following),
    Keeps (State.Within text) k → Keeps (State.Within text) (re.run backward · k)
  | empty, _, _, hk => hk
  | one set, backward, k, hk => by
    intro s t hs h
    simp only [run] at h
    split at h
    · cases h
    · next c s' hn =>
      split at h
      · exact hk s' t (hs.next hn) h
      · cases h
  | seq a b, backward, k, hk => by
    intro s t hs h
    simp only [run] at h
    split at h
    · exact keeps_run b backward _ (keeps_run a backward k hk) s t hs h
    · exact keeps_run a backward _ (keeps_run b backward k hk) s t hs h
  | alt a b, backward, k, hk => by
    intro s t hs h
    simp only [run, Option.orElse_eq_or] at h
    rcases Option.or_eq_some_iff.1 h with h | ⟨-, h⟩
    · exact keeps_run a backward k hk s t hs h
    · exact keeps_run b backward k hk s t hs h
  | loop body least most .possessive, backward, k, hk => by
    intro s t hs h
    simp only [run] at h
    split at h
    · cases h
    · next u hu =>
      have hwithin := keeps_rounds (keeps_run body backward) (keeps_some _) _ _ s u hs hu
      exact hk u t hwithin h
  | loop body least most .greedy, backward, k, hk =>
    fun s t hs h => keeps_rounds (keeps_run body backward) hk _ _ s t hs h
  | loop body least most .lazy, backward, k, hk =>
    fun s t hs h => keeps_rounds (keeps_run body backward) hk _ _ s t hs h
  | group number body, backward, k, hk => by
    intro s t hs h
    refine keeps_run body backward _ ?_ s t hs h
    intro u v hu hv
    exact hk _ v (hu.keep number s) hv
  | atomic body, backward, k, hk => by
    intro s t hs h
    simp only [run] at h
    split at h
    · cases h
    · next u hu => exact hk u t (keeps_run body backward some (keeps_some _) s u hs hu) h
  | look behind positive body, _, k, hk => by
    intro s t hs h
    simp only [run] at h
    split at h
    · split at h
      · cases h
      · exact hk s t hs h
    · next u _ =>
      split at h
      · exact hk _ t (hs.withKept u.kept) h
      · cases h
  | back number ignoreCase ascii, backward, k, hk => by
    intro s t hs h
    simp only [run] at h
    split at h
    · cases h
    · split at h
      · cases h
      · next u hu => exact hk u t (hs.past hu) h
  | anchor place, _, k, hk => by
    intro s t hs h
    simp only [run] at h
    split at h
    · exact hk s t hs h
    · cases h
  | ifGroup number yes no, backward, k, hk => by
    intro s t hs h
    simp only [run] at h
    split at h
    · exact keeps_run yes backward k hk s t hs h
    · exact keeps_run no backward k hk s t hs h
  | ifLook behind positive test yes no, backward, k, hk => by
    intro s t hs h
    simp only [run] at h
    split at h
    · split at h
      · exact keeps_run no backward k hk s t hs h
      · exact keeps_run yes backward k hk s t hs h
    · next u _ =>
      split at h
      · exact keeps_run yes backward k hk _ t (hs.withKept u.kept) h
      · exact keeps_run no backward k hk s t hs h

/-- A pattern matches no more characters than there are. -/
theorem Re.matchLength_le {re : Re Nat} {text : Text} {length : Nat}
    (h : re.matchLength? text = some length) : length ≤ text.length := by
  obtain ⟨t, ht, rfl⟩ := Option.map_eq_some_iff.1 h
  have hw := re.keeps_run false some (keeps_some _) _ t (State.Within.start text) ht
  have hlen := congrArg List.length hw.1
  simp only [List.length_append, List.length_reverse] at hlen
  rw [hw.2]
  omega

end Pegboard.Regex

namespace Pegboard

attribute [local instance] Platform.builtIn

/-- The engine's matches end within their text. -/
instance : Platform.Bounded where
  length_le h := by
    obtain ⟨re, -, hre⟩ := Option.bind_eq_some_iff.1 h
    exact re.matchLength_le hre

end Pegboard
