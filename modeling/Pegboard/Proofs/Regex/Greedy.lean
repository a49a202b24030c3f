import Pegboard.Regex.Matcher

/-!
# Greedy loops over a set of characters

A greedy loop over one set takes the longest run of its characters first, and gives some
of them back if what follows fails.  In two cases nothing is given back: when what follows
accepts the longest run, and when it accepts no shorter one.  Both lemmas are about a loop
with any continuation, so that they can be used inside a larger pattern.
-/

namespace Pegboard.Regex

/-- The state after the next characters are read. -/
def State.skip (n : Nat) (s : State) : State :=
  ⟨s.pos + n, (s.after.take n).reverse ++ s.before, s.after.drop n, s.kept⟩

namespace State

@[simp] theorem skip_pos (n : Nat) (s : State) : (s.skip n).pos = s.pos + n := rfl

@[simp] theorem skip_after (n : Nat) (s : State) : (s.skip n).after = s.after.drop n := rfl

theorem skip_skip (m n : Nat) (s : State) : (s.skip m).skip n = s.skip (m + n) := by
  simp only [skip, List.drop_drop, Nat.add_assoc, List.take_add, List.reverse_append,
    List.append_assoc]

end State

/-- One character of a set is read. -/
theorem Re.run_one (set : CharSet) (s : State) (k : Following) :
    (Re.one set).run false s k =
      match s.after with
      | [] => none
      | c :: _ => if set.holds c then k (s.skip 1) else none := by
  obtain ⟨pos, before, after, kept⟩ := s
  cases after <;> rfl

theorem Re.run_one_nil {set : CharSet} {s : State} (h : s.after = []) (k : Following) :
    (Re.one set).run false s k = none := by
  rw [Re.run_one, h]

theorem Re.run_one_cons {set : CharSet} {s : State} {c : Codepoint} {rest : Text}
    (h : s.after = c :: rest) (k : Following) :
    (Re.one set).run false s k = if set.holds c then k (s.skip 1) else none := by
  rw [Re.run_one, h]

theorem Re.run_seq (a b : Re Nat) (s : State) (k : Following) :
    (Re.seq a b).run false s k = a.run false s fun t => b.run false t k := by
  rw [Re.run]
  rfl

theorem Re.run_greedy (body : Re Nat) (least : Nat) (s : State) (k : Following) :
    (Re.loop body least none .greedy).run false s k =
      rounds (body.run false) false least none k s.after 0 s := by
  rw [Re.run]
  rfl

/-- A greedy decision of a loop without bounds. -/
theorem round_greedy (body : State → Following → Option State) (done again : Following) (count : Nat)
    (s : State) : round body false 0 none done again count s =
      (body s fun t => if t.pos = s.pos then done t else again t).orElse fun _ => done s := by
  simp [round]

/-- One round of a loop over a set. -/
theorem round_one {set : CharSet} {s : State} {least count : Nat} (hcount : least ≤ count)
    (done again : Following) :
    round ((Re.one set).run false) false least none done again count s =
      match s.after with
      | [] => done s
      | c :: _ => if set.holds c then (again (s.skip 1)).orElse fun _ => done s else done s := by
  simp only [round, Re.run_one, Option.any_none, Bool.false_eq_true, if_false, Nat.not_lt.2 hcount]
  cases s.after with
  | nil => rfl
  | cons c rest =>
    dsimp only
    split
    · -- A character moves the match, so the loop goes on.
      rw [if_neg (show (s.skip 1).pos ≠ s.pos from Nat.succ_ne_self s.pos)]
    · rfl

/-- The longest run of a set at a state. -/
def run (set : CharSet) (s : State) : Nat := (s.after.takeWhile set.holds).length

theorem run_nil {set : CharSet} {s : State} (h : s.after = []) : run set s = 0 := by
  rw [run, h]
  rfl

theorem run_stop {set : CharSet} {s : State} {c : Codepoint} {rest : Text} (h : s.after = c :: rest)
    (hc : set.holds c = false) : run set s = 0 := by
  rw [run, h, List.takeWhile_cons, hc]
  rfl

theorem run_more {set : CharSet} {s : State} {c : Codepoint} {rest : Text} (h : s.after = c :: rest)
    (hc : set.holds c = true) : run set s = run set (s.skip 1) + 1 := by
  rw [run, run, State.skip_after, h, List.takeWhile_cons, hc]
  rfl

/-- Nothing is given back if what follows accepts no shorter run. -/
theorem rounds_one_of_reject {set : CharSet} {k : Following} {least : Nat} : ∀ (ahead : Text)
    (count : Nat) (s : State), s.after.length ≤ ahead.length → least ≤ count →
    (∀ j < run set s, k (s.skip j) = none) →
    rounds ((Re.one set).run false) false least none k ahead count s = k (s.skip (run set s))
  | [], count, s, hahead, hcount, _ => by
    have hnil : s.after = [] := by simpa using hahead
    rw [rounds, round_one hcount, hnil, run_nil hnil]
    rfl
  | _ :: ahead, count, s, hahead, hcount, hreject => by
    rw [rounds, round_one hcount]
    rcases hafter : s.after with _ | ⟨c, rest⟩
    · rw [run_nil hafter]
      rfl
    · dsimp only
      by_cases hc : set.holds c = true
      · have hrun := run_more hafter hc
        have hless : (s.skip 1).after.length ≤ ahead.length := by
          rw [State.skip_after, hafter, List.drop_one, List.tail_cons]
          simpa [hafter] using hahead
        have hshift : ∀ j < run set (s.skip 1), k ((s.skip 1).skip j) = none := by
          intro j hj
          rw [State.skip_skip]
          exact hreject (1 + j) (by omega)
        have ih := rounds_one_of_reject ahead (count + 1) (s.skip 1) hless (Nat.le_succ_of_le hcount)
          hshift
        have hhere : k s = none := hreject 0 (by omega)
        rw [if_pos hc, ih, State.skip_skip, hrun, Nat.add_comm 1, hhere]
        cases k (s.skip (run set (s.skip 1) + 1)) <;> rfl
      · rw [if_neg hc, run_stop hafter (by simpa using hc)]
        rfl

/-- Nothing is given back if what follows accepts the longest run. -/
theorem rounds_one_of_accept {set : CharSet} {k : Following} {least : Nat} {t : State} :
    ∀ (ahead : Text) (count : Nat) (s : State), s.after.length ≤ ahead.length → least ≤ count →
    k (s.skip (run set s)) = some t →
    rounds ((Re.one set).run false) false least none k ahead count s = some t
  | [], count, s, hahead, hcount, haccept => by
    have hnil : s.after = [] := by simpa using hahead
    rw [run_nil hnil] at haccept
    rw [rounds, round_one hcount, hnil]
    exact haccept
  | _ :: ahead, count, s, hahead, hcount, haccept => by
    rw [rounds, round_one hcount]
    rcases hafter : s.after with _ | ⟨c, rest⟩
    · rw [run_nil hafter] at haccept
      exact haccept
    · dsimp only
      by_cases hc : set.holds c = true
      · have hless : (s.skip 1).after.length ≤ ahead.length := by
          rw [State.skip_after, hafter, List.drop_one, List.tail_cons]
          simpa [hafter] using hahead
        have haccept' : k ((s.skip 1).skip (run set (s.skip 1))) = some t := by
          rw [State.skip_skip, Nat.add_comm 1, ← run_more hafter hc]
          exact haccept
        rw [if_pos hc,
          rounds_one_of_accept ahead (count + 1) (s.skip 1) hless (Nat.le_succ_of_le hcount) haccept']
        rfl
      · rw [run_stop hafter (by simpa using hc)] at haccept
        rw [if_neg hc]
        exact haccept

/-- A greedy loop over a set at the end of a pattern takes the longest run. -/
theorem Re.run_star_some (set : CharSet) (s : State) :
    (Re.loop (.one set) 0 none .greedy).run false s some = some (s.skip (Regex.run set s)) := by
  rw [Re.run_greedy]
  exact rounds_one_of_accept s.after 0 s (Nat.le_refl _) (Nat.le_refl _) rfl

/-- One at least of a set at the end of a pattern takes the longest run that is not empty. -/
theorem Re.run_plus_some (set : CharSet) (s : State) :
    (Re.loop (.one set) 1 none .greedy).run false s some =
      if Regex.run set s = 0 then none else some (s.skip (Regex.run set s)) := by
  rw [Re.run_greedy]
  rcases hafter : s.after with _ | ⟨c, rest⟩
  · rw [run_nil hafter, if_pos rfl, rounds, round]
    simp [Re.run_one_nil hafter]
  · rw [rounds, round]
    simp only [Re.run_one_cons hafter, Option.any_none, Bool.false_eq_true, if_false, Nat.one_pos,
      if_true, State.skip_pos, Nat.succ_ne_self]
    by_cases hc : set.holds c = true
    · have hless : (s.skip 1).after.length ≤ rest.length := by simp [hafter]
      rw [if_pos hc, rounds_one_of_accept rest 1 (s.skip 1) hless (Nat.le_refl 1) rfl,
        State.skip_skip, Nat.add_comm 1, ← run_more hafter hc]
      simp [run_more hafter hc]
    · rw [if_neg hc, run_stop hafter (by simpa using hc)]
      rfl

end Pegboard.Regex
