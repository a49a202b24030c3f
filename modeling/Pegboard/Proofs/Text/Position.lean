import Mathlib.Data.List.Basic
import Pegboard.Text.Position

/-!
# Where an offset stands

A text is its lines with a line feed between neighbours.  An offset in the text stands in
one of them, and all that is shown of it to a reader speaks of that line: its number is one
more than the number of line feeds before the offset, it starts after the last of them, and
it stops at the first line feed that is not before the offset.  An offset on a line feed
stands at the end of the line before it.

The three searches are followed together, line by line (`Stands`).  In the first line they
are easy (`stands_first`), and behind a line and its line feed all of them move on by as
much (`Stands.later`), so every offset is found by going over the lines (`exists_stands`).
The number of a line tells where it starts, which gives the order of lines and columns
(`line_column_lt`).  `position_exact` puts together what is shown of an offset.
-/

namespace Pegboard.Text

/-- How much of a text lines take up, each with the line feed after it. -/
def width : List Text → Nat
  | [] => 0
  | l :: rest => l.length + 1 + width rest

/-- The offset stands in the line `piece`, which comes after the lines `earlier`. -/
structure Stands (src : Text) (pos : Nat) (earlier : List Text) (piece : Text) : Prop where
  /-- The text has these lines. -/
  lines : ∃ later, src.splitOn (Codepoint.char '\n') = earlier ++ piece :: later
  /-- The line is counted from 1. -/
  number : src.line pos = earlier.length + 1
  /-- It starts after the lines before it. -/
  start : src.lineStart pos = width earlier
  /-- It stops where it is used up. -/
  stop : src.lineStop pos = width earlier + piece.length
  /-- It is what stands in between. -/
  text : src.lineText pos = piece
  /-- It does not start behind the offset. -/
  start_le : width earlier ≤ pos

variable {src l : Text} {pos : Nat}

/-! ## In the first line -/

/-- A line is what stands before the first line feed. -/
theorem takeWhile_line {rest : Text} (hl : Codepoint.char '\n' ∉ l)
    (hrest : ∀ c ∈ rest.head?, c = '\n') :
    (l ++ rest).takeWhile (· != Codepoint.char '\n') = l := by
  have hplain : ∀ c ∈ l, (c != '\n') = true := by
    intro c hc
    rw [bne_iff_ne]
    rintro rfl
    exact hl hc
  rw [List.takeWhile_append_of_pos hplain]
  cases rest with
  | nil => rw [List.takeWhile_nil, List.append_nil]
  | cons c more => simp [hrest c rfl]

/-- A line feed ends the search for one. -/
theorem takeWhile_feed (text more : Text) :
    (text ++ .char '\n' :: more).takeWhile (· != Codepoint.char '\n') =
      text.takeWhile (· != Codepoint.char '\n') := by
  induction text with
  | nil => rfl
  | cons c text ih => rw [List.cons_append, List.takeWhile_cons, List.takeWhile_cons, ih]

/-- An offset in a line that is followed by nothing or by a line feed. -/
theorem stands_first {rest : Text} (hl : Codepoint.char '\n' ∉ l) (hpos : pos ≤ l.length)
    (hrest : ∀ c ∈ rest.head?, c = '\n') : Stands (l ++ rest) pos [] l := by
  have hbefore : before (l ++ rest) pos = l.take pos := by
    rw [before, index_natCast, List.take_append_of_le_length hpos]
  have hplain : Codepoint.char '\n' ∉ l.take pos := fun h => hl (List.mem_of_mem_take h)
  have hstart : lineStart (l ++ rest) pos = 0 := by
    have hall : ((l.take pos).reverse ++ []).takeWhile (· != Codepoint.char '\n') = (l.take pos).reverse :=
      takeWhile_line (by simpa using hplain) (by simp)
    rw [List.append_nil] at hall
    rw [lineStart, hbefore, hall, List.length_reverse, Nat.sub_self]
  have hstop : lineStop (l ++ rest) pos = l.length := by
    have hdrop : Codepoint.char '\n' ∉ l.drop pos := fun h => hl (List.mem_of_mem_drop h)
    rw [lineStop, index_natCast, rest_natCast, List.drop_append_of_le_length hpos,
      takeWhile_line hdrop hrest, List.length_drop]
    omega
  refine ⟨?_, ?_, hstart, ?_, ?_, Nat.zero_le pos⟩
  · cases rest with
    | nil => exact ⟨[], by rw [List.append_nil, List.splitOn_eq_singleton hl, List.nil_append]⟩
    | cons c more =>
      obtain rfl := hrest c rfl
      exact ⟨_, List.splitOn_append_cons_self_of_not_mem hl more⟩
  · rw [line, hbefore, List.count_eq_zero.2 hplain, List.length_nil]
  · rw [hstop, width, Nat.zero_add]
  · rw [lineText, hstart, hstop, slice_natCast, List.take_left', List.drop_zero]
    rfl

/-! ## Behind a line and its line feed -/

theorem before_later (l src : Text) (pos : Nat) :
    before (l ++ .char '\n' :: src) (l.length + 1 + pos : Nat) = l ++ .char '\n' :: before src pos := by
  rw [before, before, index_natCast, index_natCast, Nat.add_assoc, List.take_length_add_append,
    Nat.add_comm 1, List.take_succ_cons]

theorem lineStart_later (l src : Text) (pos : Nat) :
    lineStart (l ++ .char '\n' :: src) (l.length + 1 + pos : Nat) = l.length + 1 + src.lineStart pos := by
  have hle : ((before src pos).reverse.takeWhile (· != Codepoint.char '\n')).length ≤ (before src pos).length := by
    simpa using (List.takeWhile_sublist (· != Codepoint.char '\n')
      (l := (before src pos).reverse)).length_le
  have hreverse : (l ++ .char '\n' :: before src pos).reverse =
      (before src pos).reverse ++ .char '\n' :: l.reverse := by
    simp
  rw [lineStart, lineStart, before_later, hreverse, takeWhile_feed, List.length_append, List.length_cons]
  omega

theorem lineStop_later (l src : Text) (pos : Nat) :
    lineStop (l ++ .char '\n' :: src) (l.length + 1 + pos : Nat) = l.length + 1 + src.lineStop pos := by
  have hrest : (l ++ .char '\n' :: src).drop (l.length + 1 + pos) = src.drop pos := by
    rw [Nat.add_assoc, List.drop_length_add_append, Nat.add_comm 1, List.drop_succ_cons]
  rw [lineStop, lineStop, index_natCast, index_natCast, rest_natCast, rest_natCast, hrest, Nat.add_assoc]

theorem lineText_later (l src : Text) (pos : Nat) :
    lineText (l ++ .char '\n' :: src) (l.length + 1 + pos : Nat) = src.lineText pos := by
  rw [lineText, lineText, lineStart_later, lineStop_later, slice_natCast, slice_natCast, Nat.add_assoc,
    Nat.add_assoc, List.take_length_add_append, List.drop_length_add_append, Nat.add_comm 1, Nat.add_comm 1,
    List.take_succ_cons, List.drop_succ_cons]

/-- Behind a line and its line feed, an offset stands one line further down. -/
theorem Stands.later {earlier : List Text} {piece : Text} (h : Stands src pos earlier piece)
    (hl : Codepoint.char '\n' ∉ l) : Stands (l ++ .char '\n' :: src) (l.length + 1 + pos : Nat)
    (l :: earlier) piece := by
  refine ⟨?_, ?_, ?_, ?_, ?_, ?_⟩
  · obtain ⟨more, hmore⟩ := h.lines
    exact ⟨more, by rw [List.splitOn_append_cons_self_of_not_mem hl, hmore, List.cons_append]⟩
  · have hnumber : (before src pos).count (Codepoint.char '\n') + 1 = earlier.length + 1 := h.number
    rw [line, before_later, List.count_append, List.count_eq_zero.2 hl, List.count_cons_self, hnumber,
      List.length_cons, Nat.zero_add]
  · rw [lineStart_later, h.start, width]
  · rw [lineStop_later, h.stop, width, ← Nat.add_assoc]
  · rw [lineText_later, h.text]
  · rw [width]
    exact Nat.add_le_add_left h.start_le _

/-- Every offset of a text stands in one of its lines. -/
theorem exists_stands {src : Text} {pos : Nat} (h : pos ≤ src.length) :
    ∃ earlier piece, Stands src pos earlier piece := by
  by_cases hfeed : Codepoint.char '\n' ∈ src
  · obtain ⟨l, more, hsrc, hl⟩ := List.eq_append_cons_of_mem hfeed
    have hlength : src.length = l.length + (more.length + 1) := by
      rw [hsrc, List.length_append, List.length_cons]
    by_cases hpos : pos ≤ l.length
    · exact ⟨[], l, hsrc ▸ stands_first hl hpos (by simp)⟩
    · have hback : l.length + 1 + (pos - (l.length + 1)) = pos := by omega
      have hin : pos - (l.length + 1) ≤ more.length := by omega
      obtain ⟨earlier, piece, hmore⟩ := exists_stands hin
      have hlater := hmore.later hl
      rw [hback, ← hsrc] at hlater
      exact ⟨l :: earlier, piece, hlater⟩
  · have hfirst : Stands (src ++ []) pos [] src := stands_first hfeed h (by simp)
    rw [List.append_nil] at hfirst
    exact ⟨[], src, hfirst⟩
termination_by src.length
decreasing_by omega

/-! ## What is shown -/

theorem Stands.column_sub {earlier : List Text} {piece : Text} (h : Stands src pos earlier piece) :
    src.column pos - 1 = (pos - width earlier : Nat) := by
  have := h.start_le
  rw [column, h.start]
  omega

/-- The offset does not stand behind its line. -/
theorem Stands.le_stop {earlier : List Text} {piece : Text} (h : Stands src pos earlier piece) :
    pos ≤ width earlier + piece.length := by
  rw [← h.stop, lineStop, index_natCast]
  exact Nat.le_add_right _ _

/-- What stands at the offset stands in its line too, unless it is the line feed. -/
theorem Stands.getElem? {earlier : List Text} {piece : Text} (h : Stands src pos earlier piece)
    {c : Codepoint} (hc : src[pos]? = some c) (hne : c ≠ '\n') :
    piece[pos - width earlier]? = some c := by
  have hle := h.start_le
  have hlt : pos < src.lineStop pos := by
    obtain ⟨hpos, rfl⟩ := List.getElem?_eq_some_iff.1 hc
    have hhead : (src[pos] != '\n') = true := by simpa using hne
    rw [lineStop, index_natCast, rest_natCast, List.drop_eq_getElem_cons hpos, List.takeWhile_cons,
      if_pos hhead, List.length_cons]
    omega
  have hat : width earlier + (pos - width earlier) = pos := by omega
  rw [← h.text, lineText, h.start, slice_natCast, List.getElem?_drop, hat, List.getElem?_take_of_lt hlt, hc]

/-- The lines before the one of an offset are told by its number. -/
theorem Stands.earlier_eq {earlier : List Text} {piece : Text} (h : Stands src pos earlier piece) :
    earlier = (src.splitOn (Codepoint.char '\n')).take (src.line pos - 1) := by
  obtain ⟨later, hlines⟩ := h.lines
  rw [hlines, h.number, Nat.add_sub_cancel, List.take_left]

/-- A later offset is in a later line, or in a later column of the same line. -/
theorem line_column_lt {src : Text} {pos pos' : Nat} (hlt : pos < pos') (h : pos' ≤ src.length) :
    src.line pos < src.line pos' ∨ src.line pos = src.line pos' ∧ src.column pos < src.column pos' := by
  have hle : src.line pos ≤ src.line pos' := by
    rw [line, line, before, before, index_natCast, index_natCast]
    exact Nat.succ_le_succ ((List.take_sublist_take_left (Nat.le_of_lt hlt)).count_le (Codepoint.char '\n'))
  rcases Nat.lt_or_eq_of_le hle with hline | hline
  · exact .inl hline
  · obtain ⟨earlier, piece, hstands⟩ := exists_stands (Nat.le_trans (Nat.le_of_lt hlt) h)
    obtain ⟨earlier', piece', hstands'⟩ := exists_stands h
    have hearlier : earlier = earlier' := by rw [hstands.earlier_eq, hstands'.earlier_eq, hline]
    refine .inr ⟨hline, ?_⟩
    rw [column, column, hstands.start, hstands'.start, hearlier]
    omega

/-- The line and column of an offset of a text are exact.  The line is one of the text, counted
from 1; what comes before it, with the line feeds, and the column make up the offset; later
offsets have later lines or columns, so no two have the same ones.  The snippet is that line
over a caret in that column, so the caret points at what stands at the offset. -/
theorem position_exact (src : Text) {pos : Nat} (h : pos ≤ src.length) :
    ∃ earlier piece later, src.splitOn (Codepoint.char '\n') = earlier ++ piece :: later ∧
      src.line pos = earlier.length + 1 ∧
      width earlier + (src.column pos - 1) = pos ∧
      0 ≤ src.column pos - 1 ∧ src.column pos - 1 ≤ piece.length ∧
      src.snippet pos =
        piece ++ .char '\n' :: (List.replicate (src.column pos - 1).toNat (Codepoint.char ' ') ++
          [.char '^']) ∧
      (∀ c, src[pos]? = some c → c ≠ '\n' → piece[(src.column pos - 1).toNat]? = some c) ∧
      ∀ pos' : Nat, pos' ≤ src.length →
        (pos < pos' → src.line pos < src.line pos' ∨
          src.line pos = src.line pos' ∧ src.column pos < src.column pos') ∧
        (src.line pos = src.line pos' → src.column pos = src.column pos' → pos = pos') := by
  obtain ⟨earlier, piece, hstands⟩ := exists_stands h
  obtain ⟨later, hlines⟩ := hstands.lines
  have hstart := hstands.start_le
  have hstop := hstands.le_stop
  have hcolumn := hstands.column_sub
  refine ⟨earlier, piece, later, hlines, hstands.number, ?_, ?_, ?_, ?_, fun c hc hne => ?_,
    fun pos' h' => ⟨fun hlt => line_column_lt hlt h', fun hline hcol => ?_⟩⟩
  · rw [hcolumn]
    omega
  · rw [hcolumn]
    omega
  · rw [hcolumn]
    omega
  · rw [snippet, hstands.text, column, Int.add_sub_cancel]
  · rw [hcolumn, Int.toNat_natCast]
    exact hstands.getElem? hc hne
  · -- Of two offsets that differ, the later one has a later line or column.
    rcases Nat.lt_trichotomy pos pos' with hlt | heq | hgt
    · have := line_column_lt hlt h'
      omega
    · exact heq
    · have := line_column_lt hgt h
      omega

/-- An offset on a line feed that stands right behind another one is in the empty line between
them. -/
theorem position_exact_gap : 3 ≤ "ab\n\ncd".toText.length ∧ ∃ earlier piece later,
    "ab\n\ncd".toText.splitOn (Codepoint.char '\n') = earlier ++ piece :: later ∧ earlier.length = 1 ∧
      width earlier = 3 ∧ snippet "ab\n\ncd".toText 3 = piece ++ "\n^".toText := by
  have hin : 3 ≤ "ab\n\ncd".toText.length := by decide
  refine ⟨hin, ?_⟩
  obtain ⟨earlier, piece, later, hlines, hline, hwidth, -, -, hsnippet, -⟩ :=
    position_exact "ab\n\ncd".toText hin
  have hcolumn : column "ab\n\ncd".toText (3 : Nat) = 1 := by decide
  have hnumber : line "ab\n\ncd".toText (3 : Nat) = 2 := by decide
  rw [hcolumn] at hwidth hsnippet
  exact ⟨earlier, piece, later, hlines, by omega, by omega, hsnippet⟩

end Pegboard.Text
