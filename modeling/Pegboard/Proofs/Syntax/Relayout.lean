import Pegboard.Proofs.Syntax.Rereading

/-!
# Putting in other layout

Layout can be exchanged for other layout without a change to the tokens around it.  There
are two things to see to.

A token has to end where it did.  It does if a blank or a comment comes next, since no label
and no flags go on with those (`Token.reads_before_layout`).

The layout has to end where the next token begins.  A comment goes on to the end of its
line, so it must not be the last thing in the layout unless the text ends there.  Layout that
ends otherwise is skipped as it is, whatever comes after it (`Passes`).

`spells_relaid` puts the two together: with other layout after one of its tokens, which is
not a mark, a text spells what it did before.
-/

namespace Pegboard.Syntax

open Regex

/-! ## Blanks and tokens -/

theorem exists_range {n : Nat} : ∀ {ranges : Codepoint.Ranges}, ranges.holds n = true →
    ∃ r ∈ ranges, r.1 ≤ n ∧ n ≤ r.2
  | [], h => by cases h
  | (low, high) :: rest, h => by
    rw [Codepoint.Ranges.holds] at h
    split at h
    · cases h
    · next hlow =>
      split at h
      · next hhigh => exact ⟨(low, high), List.mem_cons_self, Nat.not_lt.1 hlow, hhigh⟩
      · obtain ⟨r, hr, hn⟩ := exists_range h
        exact ⟨r, List.mem_cons_of_mem _ hr, hn⟩

/-- Neither a label nor flags go on with white space. -/
theorem space_distinct {c : Codepoint} (h : space.holds c = true) :
    labelRest.holds c = false ∧ flagLetter.holds c = false := by
  have hspace : Codepoint.isSpace c.toNat = true := by
    simpa [CharSet.holds, space, CharSet.memberHolds, CharSet.spellings, CharSet.classHolds,
      CharClass.holds] using h
  have hall : ∀ r ∈ Codepoint.spaceRanges, r.2 ≤ r.1 + 10 ∧ ∀ k ≤ 10, r.1 + k ≤ r.2 →
      labelRest.holds (Codepoint.ofNat (r.1 + k)) = false ∧
        flagLetter.holds (Codepoint.ofNat (r.1 + k)) = false := by
    decide +kernel
  obtain ⟨r, hr, hlow, hhigh⟩ := exists_range hspace
  obtain ⟨hshort, hchars⟩ := hall r hr
  have hdistinct := hchars (c.toNat - r.1) (by omega) (by omega)
  rwa [Nat.add_sub_cancel' hlow, Codepoint.ofNat_toNat] at hdistinct

/-- What ends a line is white space. -/
theorem space_of_not_unbroken {c : Codepoint} (h : unbroken.holds c = false) :
    space.holds c = true := by
  have hbreak : c.toNat = 13 ∨ c.toNat = 10 := by
    have hmember : ¬ 13 = c.toNat → 10 = c.toNat := by
      simpa [CharSet.holds, unbroken, CharSet.memberHolds, CharSet.spellings] using h
    omega
  rcases hbreak with hc | hc
  · rw [← Codepoint.ofNat_toNat c, hc]
    decide
  · rw [← Codepoint.ofNat_toNat c, hc]
    decide

theorem Layout.text_append (layout layout' : Layout) :
    Layout.text (layout ++ layout') = Layout.text layout ++ Layout.text layout' := List.flatMap_append

/-- Layout starts with white space or with the sign of a comment. -/
def StartsLayout (c : Codepoint) : Prop := space.holds c = true ∨ c = '#'

theorem Blank.starts (b : Blank) : ∃ c s, b.text = c :: s ∧ StartsLayout c := by
  match b with
  | .spaces first rest ok => exact ⟨first, rest, rfl, .inl (ok first List.mem_cons_self)⟩
  | .comment rest ok => exact ⟨'#', rest, rfl, .inr rfl⟩

theorem Layout.starts {layout : Layout} (h : Layout.text layout ≠ []) :
    ∃ c, (Layout.text layout).head? = some c ∧ StartsLayout c := by
  cases layout with
  | nil => exact absurd rfl h
  | cons b rest =>
    obtain ⟨c, s, htext, hc⟩ := b.starts
    exact ⟨c, by rw [text, List.flatMap_cons, htext]; rfl, hc⟩

theorem StartsLayout.distinct {c : Codepoint} (h : StartsLayout c) :
    labelRest.holds c = false ∧ flagLetter.holds c = false := by
  rcases h with h | rfl
  · exact space_distinct h
  · decide

/-- Whether a token would go on with a character. -/
def Token.goesOn : Token → Codepoint → Bool
  | .label _, c => labelRest.holds c
  | .regex _ _, c => flagLetter.holds c
  | _, _ => false

theorem head?_dropWhile {p : Codepoint → Bool} {s : Text} {c : Codepoint}
    (h : (s.dropWhile p).head? = some c) :
    p c = false := by
  have hhead := List.head?_dropWhile_not p s
  rwa [h] at hhead

/-- A token is read before what it does not go on with, and only there. -/
theorem Token.reads_iff {t : Token} {y : Text} :
    t.Reads (t.text ++ y) y ↔ ∀ c, y.head? = some c → t.goesOn c = false := by
  match t with
  | .label l =>
    constructor
    · intro h c hc
      have hlabel : readLabel (l.first :: (l.rest ++ y)) = some (l, y) := h
      rw [readLabel, dif_pos l.first_ok] at hlabel
      have hrest : (l.rest ++ y).dropWhile labelRest.holds = y := by
        simpa using congrArg (Option.map Prod.snd) hlabel
      rw [← hrest] at hc
      exact head?_dropWhile hc
    · exact readLabel_append l
  | .literal q => exact ⟨fun _ _ _ => rfl, fun _ => readQuoted_append q y⟩
  | .regex q flags =>
    constructor
    · rintro ⟨s', s'', -, -, hflags⟩ c hc
      have hrest : s''.dropWhile flagLetter.holds = y := congrArg Prod.snd hflags
      rw [← hrest] at hc
      exact head?_dropWhile hc
    · intro h
      have htext : Token.text (.regex q flags) ++ y = .char '~' :: (q.text ++ (flags.text ++ y)) := by
        rw [Token.text, List.cons_append, List.append_assoc]
      exact ⟨_, _, htext, readQuoted_append q _, readFlags_append flags h⟩
  | .sign g => exact ⟨fun _ _ _ => rfl, fun _ => rfl⟩

/-- A token ends before layout, whatever it is. -/
theorem Token.reads_before_layout (t : Token) {y : Text} {c : Codepoint} (hy : y.head? = some c)
    (hc : StartsLayout c) : t.Reads (t.text ++ y) y := by
  refine Token.reads_iff.2 fun d hd => ?_
  obtain rfl : c = d := Option.some.inj (hy.symm.trans hd)
  match t with
  | .label _ => exact hc.distinct.1
  | .regex _ _ => exact hc.distinct.2
  | .literal _ => rfl
  | .sign _ => rfl

/-! ## Layout that is skipped as it is -/

/-- Layout is skipped as it is, whatever comes after it. -/
def Passes (x : Text) : Prop := ∀ y, (readLayout (x ++ y)).2 = (readLayout y).2

theorem Passes.nil : Passes [] := fun _ => rfl

theorem Passes.append {x x' : Text} (h : Passes x) (h' : Passes x') : Passes (x ++ x') := by
  intro y
  rw [List.append_assoc, h, h']

theorem passes_spaces : ∀ {run : Text}, (∀ c ∈ run, space.holds c = true) → Passes run
  | [], _ => Passes.nil
  | c :: run, h => by
    obtain ⟨hc, hrun⟩ := List.forall_mem_cons.1 h
    intro y
    rw [List.cons_append, readLayout_space hc, passes_spaces hrun]

/-- A comment is skipped as it is before what ends its line. -/
theorem passes_comment {run x : Text} (hrun : ∀ c ∈ run, unbroken.holds c = true) {c : Codepoint}
    {x' : Text} (hx : x = c :: x') (hc : unbroken.holds c = false) (h : Passes x) :
    Passes (.char '#' :: (run ++ x)) := by
  subst hx
  intro y
  have hdrop : (run ++ c :: (x' ++ y)).dropWhile unbroken.holds = c :: (x' ++ y) := by
    refine (takeWhile_run hrun fun d hd => ?_).2
    obtain rfl : c = d := Option.some.inj hd
    exact hc
  rw [List.cons_append, List.append_assoc, readLayout_hash, List.cons_append, hdrop, ← List.cons_append, h]

/-- Reading layout takes what is read first, and then the others. -/
theorem readLayout_cons {s rest : Text} {b : Blank} {layout : Layout}
    (h : readLayout s = (b :: layout, rest)) :
    ∃ s', readBlank s = some (b, s') ∧ readLayout s' = (layout, rest) := by
  rcases hblank : readBlank s with _ | ⟨b', s'⟩
  · rw [readLayout_of_none hblank] at h
    cases h
  · rw [readLayout, many_cons readBlank_text Blank.text_ne_nil hblank] at h
    cases h
    exact ⟨s', rfl, rfl⟩

/-- A comment goes on to what ends its line. -/
theorem readBlank_comment {s s' run : Text} {ok : ∀ c ∈ run, unbroken.holds c = true}
    (h : readBlank s = some (.comment run ok, s')) {c : Codepoint} (hc : s'.head? = some c) :
    unbroken.holds c = false := by
  unfold readBlank at h
  split at h
  · cases h
  · split at h
    · cases h
    · split at h
      · cases h
        exact head?_dropWhile hc
      · cases h

/-- If layout ends with a comment, there is more text after it. -/
def ClosedBefore (layout : Layout) (rest : Text) : Prop :=
  ∀ run ok, layout.getLast? = some (.comment run ok) → rest ≠ []

/-- Layout that is read is skipped as it is, unless the text ends with a comment. -/
theorem passes_readLayout {layout : Layout} {rest : Text} : ∀ {s : Text}, readLayout s = (layout, rest) →
    ClosedBefore layout rest → Passes (Layout.text layout) := by
  induction layout with
  | nil => exact fun _ _ => Passes.nil
  | cons b layout ih =>
    intro s h hclosed
    obtain ⟨s', hblank, hlayout⟩ := readLayout_cons h
    have hmore : Passes (Layout.text layout) := by
      refine ih hlayout fun run ok hlast => hclosed run ok ?_
      rw [List.getLast?_cons, hlast]
      rfl
    rw [Layout.text, List.flatMap_cons, ← Layout.text]
    cases b with
    | spaces first run ok => exact (passes_spaces ok).append hmore
    | comment run ok =>
      have hs' := readLayout_text s'
      rw [hlayout] at hs'
      rcases htext : Layout.text layout with _ | ⟨c, x⟩
      · -- There is more text, but it cannot start with the end of a line, which is layout.
        rw [htext, List.nil_append] at hs'
        have hnil : layout = [] := by
          cases layout with
          | nil => rfl
          | cons b' _ => exact absurd (List.append_eq_nil_iff.1 htext).1 b'.text_ne_nil
        obtain ⟨c, rest', hrest⟩ := List.exists_cons_of_ne_nil (hclosed run ok (by rw [hnil]; rfl))
        have hc := space_of_not_unbroken (readBlank_comment hblank (by rw [hs', hrest]; rfl))
        have hnone := readBlank_readLayout s'
        rw [hlayout, hrest, readBlank, dif_pos hc] at hnone
        cases hnone
      · have hc : unbroken.holds c = false := readBlank_comment hblank (by rw [hs', htext]; rfl)
        rw [← htext]
        exact passes_comment ok htext hc hmore

/-- Layout with more text after it is skipped as it is. -/
theorem passes_of_rest {s : Text} (h : (readLayout s).2 ≠ []) : Passes (Layout.text (readLayout s).1) :=
  passes_readLayout rfl fun _ _ _ => h

/-- A text that is all layout and does not end with a comment is skipped as it is. -/
theorem passes_of_closed {w : Text} (hw : (readLayout w).2 = [])
    (hlast : ∀ run ok, (readLayout w).1.getLast? ≠ some (.comment run ok)) : Passes w := by
  have htext := readLayout_text w
  rw [hw, List.append_nil] at htext
  rw [htext]
  exact passes_readLayout rfl fun run ok hcomment => absurd hcomment (hlast run ok)

/-- A text of layout is skipped to its end. -/
theorem readLayout_layoutText (layout : Layout) : (readLayout (Layout.text layout)).2 = [] := by
  have hlength := length_readLayout_append layout []
  rw [List.append_nil] at hlength
  exact List.length_eq_zero_iff.1 (Nat.le_zero.1 hlength)

theorem space_lineBreak : space.holds '\n' = true := by decide

/-- A line break as layout. -/
def lineBreak : Layout := [.spaces '\n' [] (List.forall_mem_singleton.2 space_lineBreak)]

theorem text_lineBreak : Layout.text lineBreak = [.char '\n'] := rfl

/-- Layout that ends with a line break is skipped as it is. -/
theorem passes_of_lineBreak (layout : Layout) : Passes (Layout.text (layout ++ lineBreak)) := by
  have hrest := readLayout_layoutText (layout ++ lineBreak)
  refine passes_of_closed hrest fun run ok hlast => ?_
  -- the last thing in the layout holds the line break, which no comment does
  obtain ⟨front, hfront⟩ := List.getLast?_eq_some_iff.1 hlast
  have htext := readLayout_text (Layout.text (layout ++ lineBreak))
  rw [hrest, hfront, List.append_nil, Layout.text_append, Layout.text_append,
    text_lineBreak,
    show Layout.text [.comment run ok] = .char '#' :: run from List.flatMap_singleton ..] at htext
  have hbreak : (.char '#' :: run).getLast? = some (Codepoint.char '\n') := by
    have hends := congrArg List.getLast? htext
    rw [List.getLast?_concat, List.getLast?_append, List.getLast?_cons, Option.some_or] at hends
    rw [List.getLast?_cons, hends]
  rcases List.mem_cons.1 (List.mem_of_getLast? hbreak) with h | h
  · exact absurd h (by decide)
  · have hunbroken := ok '\n' h
    revert hunbroken
    decide

/-! ## Other layout after a token -/

/-- The pieces of a text are cut one after the other. -/
theorem Cuts.split {qs : List Piece} {rest : Text} : ∀ {ps : List Piece} {s : Text},
    Cuts s (ps ++ qs) rest → Cuts s ps (textOf qs ++ rest) ∧ Cuts (textOf qs ++ rest) qs rest
  | [], s, h => by
    have hs := h.text_eq
    rw [List.nil_append] at hs h
    exact ⟨hs ▸ .nil s, hs ▸ h⟩
  | p :: ps, s, h => by
    cases h with
    | cons token more => exact ⟨.cons token more.split.1, more.split.2⟩

/-- What is cut into pieces spells them. -/
theorem Cuts.spells {s rest : Text} {ps : List Piece} {ls : List Lexeme} (h : Cuts s ps rest)
    (hrest : Lexes rest ls) : Spells s (ps.map Piece.lexeme ++ ls) := (h.lexes hrest).spells

/-- What a text starts with does not depend on what comes after its first token. -/
theorem head?_before_token (ps : List Piece) (p : Piece) (u u' : Text) :
    (textOf ps ++ (p.token.text ++ u)).head? = (textOf ps ++ (p.token.text ++ u')).head? := by
  obtain ⟨c, s, htext⟩ := List.exists_cons_of_ne_nil p.token.text_ne_nil
  simp only [htext, List.head?_append, List.cons_append, List.head?_cons]

theorem textOf_ne_nil {ps : List Piece} (h : ps ≠ []) : textOf ps ≠ [] := by
  obtain ⟨p, rest, rfl⟩ := List.exists_cons_of_ne_nil h
  rw [textOf_cons]
  exact List.append_ne_nil_of_left_ne_nil p.token.text_ne_nil _

/-- A token with the layout after it is spelled as before in front of another text, if the token
does not go on with what it now stands before. -/
theorem Spells.behind {s s' z : Text} {t : Token} {ls : List Lexeme} (token : t.Reads s s')
    (hne : (readLayout s').2 ≠ []) (hz : Spells z ls)
    (hends : ∀ c, z.head? = some c → t.goesOn c = false ∨ (readLayout s').2.head? = some c) :
    Spells (t.text ++ (Layout.text (readLayout s').1 ++ z)) (Piece.lexeme ⟨t, (readLayout s').1⟩ :: ls) := by
  have hs' := readLayout_text s'
  have hlayout : (readLayout (Layout.text (readLayout s').1 ++ z)).2 = z := by
    rw [passes_of_rest hne, readLayout_of_none hz.readBlank]
  rw [token.text] at token
  refine .cons (Token.reads_iff.2 fun c hc => ?_) (fun _ hspaced => ?_) (hlayout.symm ▸ hz)
  · rw [List.head?_append, Option.or_eq_some_iff] at hc
    rcases hc with hc | ⟨hnil, hc⟩
    · refine Token.reads_iff.1 token c ?_
      rw [hs', List.head?_append, hc, Option.some_or]
    · -- The layout is empty, so the token stands before the text itself.
      rcases hends c hc with hends | hhead
      · exact hends
      · refine Token.reads_iff.1 token c ?_
        rw [hs', List.head?_append, hnil, Option.none_or, hhead]
  · have hempty : Layout.text (readLayout s').1 = [] := by
      simpa [Piece.lexeme] using hspaced
    rw [hempty, List.nil_append]
    exact hz.readBlank

/-- A text spells what it did before if there is other layout, which leads up to lexemes,
after one of its tokens that is not a mark. -/
theorem spells_relaid {p : Piece} {qs : List Piece} {rest : Text} (hmark : p.token.isMark = false)
    {x y : Text} {c : Codepoint} (hx : x.head? = some c) (hc : StartsLayout c)
    (hskip : (readLayout (x ++ y)).2 = y) {ls : List Lexeme} (hy : Spells y ls) :
    ∀ {ps : List Piece} {s : Text}, Cuts s (ps ++ p :: qs) rest →
      Spells (textOf ps ++ (p.token.text ++ (x ++ y))) (ps.map Piece.lexeme ++ p.lexeme :: ls)
  | [], s, _ => by
    have hhead : (x ++ y).head? = some c := by rw [List.head?_append, hx, Option.some_or]
    have htoken := p.token.reads_before_layout hhead hc
    refine .cons htoken (fun h => ?_) (hskip.symm ▸ hy)
    exact absurd (hmark.symm.trans h) Bool.false_ne_true
  | q :: ps, s, h => by
    cases h with
    | @cons _ s' _ t _ token more =>
      have ih := spells_relaid hmark hx hc hskip hy more
      have hmore : (readLayout s').2 = textOf (ps ++ p :: qs) ++ rest := more.text_eq
      rw [textOf_append, textOf_cons, List.append_assoc, List.append_assoc] at hmore
      have hhead := head?_before_token ps p (x ++ y) (Layout.text p.after ++ textOf qs ++ rest)
      rw [← hmore] at hhead
      have hne : (readLayout s').2 ≠ [] := by
        rw [hmore]
        simp [p.token.text_ne_nil]
      rw [textOf_cons, List.append_assoc, List.append_assoc]
      -- It leads up to the same character as before, so what is in front ends where it did.
      exact Spells.behind token hne ih fun c hc => .inr (hhead ▸ hc)

/-- Rules are read behind layout that is skipped as it is. -/
theorem readsAs_behind [Platform] {x y : Text} {r : RuleSpelling} {rs : List RuleSpelling}
    (hx : Passes x) (hy : Spells y ((r :: rs).flatMap RuleSpelling.lexemes)) :
    ReadsAs (x ++ y) (r :: rs) := by
  refine readsAs_of_spells ?_
  rwa [hx, readLayout_of_none hy.readBlank]

/-- What is cut into pieces, with a line break after it, spells them before whatever comes next.
The last one must not be a mark. -/
theorem Cuts.spells_line {s rest : Text} {ps : List Piece} {p : Piece} (h : Cuts s (ps ++ [p]) rest)
    (hmark : p.token.isMark = false) {y : Text} {ls : List Lexeme} (hy : Spells y ls) :
    Spells (textOf (ps ++ [p]) ++ .char '\n' :: y) ((ps ++ [p]).map Piece.lexeme ++ ls) := by
  have hne : Layout.text (p.after ++ lineBreak) ≠ [] := by
    rw [Layout.text_append, text_lineBreak]
    simp
  obtain ⟨c, hx, hc⟩ := Layout.starts hne
  have hskip : (readLayout (Layout.text (p.after ++ lineBreak) ++ y)).2 = y := by
    rw [passes_of_lineBreak p.after, readLayout_of_none hy.readBlank]
  have hspells := spells_relaid hmark hx hc hskip hy h
  rw [Layout.text_append, text_lineBreak] at hspells
  simpa using hspells

/-- A definition text is read again with other layout after one of its tokens, and other
lexemes after that, if the lexemes are those of rules all in all. -/
theorem readsAs_relaid [Platform] {s rest x y : Text} {before after : List Piece} {p : Piece}
    {c : Codepoint} {ls : List Lexeme} {r : RuleSpelling} {rs : List RuleSpelling}
    (hcuts : Cuts (readLayout s).2 (before ++ p :: after) rest) (hmark : p.token.isMark = false)
    (hx : x.head? = some c) (hc : StartsLayout c) (hskip : (readLayout (x ++ y)).2 = y) (hy : Spells y ls)
    (hrules : (before ++ [p]).map Piece.lexeme ++ ls = (r :: rs).flatMap RuleSpelling.lexemes) :
    ReadsAs (Layout.text (readLayout s).1 ++ (textOf before ++ (p.token.text ++ (x ++ y)))) (r :: rs) := by
  have hspells := spells_relaid hmark hx hc hskip hy hcuts
  have hstart : (readLayout s).2 ≠ [] := by
    rw [hcuts.text_eq]
    simp [p.token.text_ne_nil]
  refine readsAs_behind (passes_of_rest hstart) ?_
  rw [← hrules]
  simpa using hspells

end Pegboard.Syntax
