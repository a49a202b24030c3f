import Mathlib.Data.List.Basic
import Pegboard.Proofs.Node.Listing
import Pegboard.Proofs.Node.Outline

/-!
# How outlines are printed

An element is printed in one of two shapes, all on one line (`elementLine`) or with lines of
its own between the lines of the two tags (`elementBlock`).  What stands between is either the
printed children with commas for their line feeds, or the same with two blanks after each
line feed (`element_eq`).

The commas replace every line feed, whether it stands between two children or inside of one.
That does no harm, because the children are only put on one line if they are short, and a
child with a line feed of its own is not (`width_le_of_broken`).  So each child keeps its
lines (`printed_layout`).

The two tags and the children of a line stay below `width`, but the two blanks between them
are not counted.  So a line has at most one column more than `width` (`printed_line_iff`), and
there is one that has it (`not_printed_within_width`).
-/

namespace Pegboard

/-- Joined pieces are no shorter than each of them. -/
theorem Text.length_le_join (separator : Text) {piece : Text} : ∀ {pieces : List Text}, piece ∈ pieces →
    piece.length ≤ (join separator pieces).length
  | [_], h => Nat.le_of_eq (congrArg List.length (List.mem_singleton.1 h))
  | first :: next :: rest, h => by
    rw [join_cons_cons, List.length_append, List.length_append]
    rcases List.mem_cons.1 h with rfl | h
    · omega
    · have hrest := length_le_join separator h
      omega

namespace Outline

/-! ## Line feeds replaced -/

theorem breakAs_feed (replacement text : Text) :
    breakAs replacement (.char '\n' :: text) = replacement ++ breakAs replacement text := rfl

theorem breakAs_cons {c : Codepoint} (h : c ≠ '\n') (replacement text : Text) :
    breakAs replacement (c :: text) = c :: breakAs replacement text := by
  rw [breakAs, List.flatMap_cons, if_neg h]
  rfl

theorem breakAs_append (replacement a b : Text) :
    breakAs replacement (a ++ b) = breakAs replacement a ++ breakAs replacement b :=
  List.flatMap_append

theorem breakAs_of_not_mem (replacement : Text) : ∀ {text : Text}, Codepoint.char '\n' ∉ text →
    breakAs replacement text = text
  | [], _ => rfl
  | c :: text, h => by
    obtain ⟨hc, htext⟩ := List.ne_and_not_mem_of_not_mem_cons h
    rw [breakAs_cons hc.symm, breakAs_of_not_mem replacement htext]

theorem not_mem_breakAs {replacement : Text} (h : Codepoint.char '\n' ∉ replacement) (text : Text) :
    Codepoint.char '\n' ∉ breakAs replacement text := by
  intro hmem
  obtain ⟨c, -, hc⟩ := List.mem_flatMap.1 hmem
  split at hc
  · exact h hc
  · next hne => exact hne (List.mem_singleton.1 hc).symm

/-- A replacement that is not empty makes no text shorter. -/
theorem length_le_breakAs {replacement : Text} (h : 0 < replacement.length) : ∀ text : Text,
    text.length ≤ (breakAs replacement text).length
  | [] => Nat.le_refl _
  | c :: text => by
    have hrest := length_le_breakAs h text
    by_cases hc : c = '\n'
    · rw [hc, breakAs_feed, List.length_cons, List.length_append]
      omega
    · rw [breakAs_cons hc, List.length_cons, List.length_cons]
      omega

theorem breakAs_join (replacement : Text) : ∀ pieces : List Text,
    breakAs replacement (Text.join ['\n'] pieces) =
      Text.join replacement (pieces.map (breakAs replacement))
  | [] => rfl
  | [_] => rfl
  | piece :: next :: rest => by
    have hrest := breakAs_join replacement (next :: rest)
    have hfeed : breakAs replacement ['\n'] = replacement := List.append_nil replacement
    rw [Text.join_cons_cons, breakAs_append, breakAs_append, hrest, hfeed]
    rfl

/-- A line two columns further to the right. -/
def indent (line : Text) : Text := .char ' ' :: .char ' ' :: line

/-- Two blanks after each line feed move all lines but the first one, which `indent` moves.  The
line that is being read is `start` so far. -/
theorem splitOn_indent {start : Text} (hstart : Codepoint.char '\n' ∉ start) (text : Text) :
    (indent (start ++ breakAs "\n  ".toText text)).splitOn (Codepoint.char '\n') =
      ((start ++ text).splitOn (Codepoint.char '\n')).map indent := by
  induction text generalizing start with
  | nil =>
    have hline : Codepoint.char '\n' ∉ indent start := by simpa [indent] using hstart
    rw [breakAs, List.flatMap_nil, List.append_nil, List.splitOn_eq_singleton hline,
      List.splitOn_eq_singleton hstart, List.map_singleton]
  | cons c text ih =>
    by_cases hc : c = '\n'
    · have hline : Codepoint.char '\n' ∉ indent start := by simpa [indent] using hstart
      have hbreak : indent (start ++ ("\n  ".toText ++ breakAs "\n  ".toText text)) =
          indent start ++ .char '\n' :: indent (breakAs "\n  ".toText text) := rfl
      have hrest := ih List.not_mem_nil
      rw [List.nil_append, List.nil_append] at hrest
      rw [hc, breakAs_feed, hbreak, List.splitOn_append_cons_self, List.splitOn_append_cons_self,
        List.splitOn_eq_singleton hline, List.splitOn_eq_singleton hstart, List.map_append,
        List.map_singleton, hrest]
    · have hnext : Codepoint.char '\n' ∉ start ++ [c] := by
        rw [List.mem_append, List.mem_singleton]
        exact not_or.2 ⟨hstart, fun h => hc h.symm⟩
      have hrest := ih hnext
      rw [List.append_assoc, List.append_assoc, List.singleton_append, List.singleton_append] at hrest
      rw [breakAs_cons hc]
      exact hrest

/-! ## Elements -/

/-- An element on one line. -/
def elementLine (name body : Text) :
    Text := header name ++ .char ' ' :: body ++ .char ' ' :: footer name

/-- An element with lines of its own between its tags. -/
def elementBlock (name body : Text) : Text :=
  header name ++ .char '\n' :: indent body ++ .char '\n' :: footer name

theorem length_elementLine (name body : Text) :
    (elementLine name body).length = (header name).length + body.length + (footer name).length + 2 := by
  simp only [elementLine, List.length_append, List.length_cons]
  omega

theorem length_elementBlock (name body : Text) :
    (elementBlock name body).length = (header name).length + body.length + (footer name).length + 4 := by
  simp only [elementBlock, indent, List.length_append, List.length_cons]
  omega

theorem element_eq (name children : Text) :
    element name children =
      if children.length < width then
        if (elementLine name (breakAs ", ".toText children)).length ≤ width + 1 then
          elementLine name (breakAs ", ".toText children)
        else elementBlock name (breakAs ", ".toText children)
      else elementBlock name (breakAs "\n  ".toText children) := by
  have hlength : (header name).length + (breakAs ", ".toText children).length +
      (footer name).length < width ↔
      (elementLine name (breakAs ", ".toText children)).length ≤ width + 1 := by
    rw [length_elementLine]
    omega
  have hblock : ∀ body, header name ++ "\n  ".toText ++ body ++ .char '\n' :: footer name =
      elementBlock name body := by
    intro body
    rw [elementBlock, List.append_assoc (header name)]
    rfl
  rw [element]
  dsimp only
  split
  · by_cases hfits : (elementLine name (breakAs ", ".toText children)).length ≤ width + 1
    · rw [if_pos (hlength.2 hfits), if_pos hfits]
      rfl
    · rw [if_neg (mt hlength.1 hfits), if_neg hfits, hblock]
  · rw [hblock]

theorem lineFeed_not_mem_header {name : Text} :
    Codepoint.char '\n' ∉ header name ↔ Codepoint.char '\n' ∉ name := by
  simp [header]

theorem lineFeed_not_mem_footer {name : Text} :
    Codepoint.char '\n' ∉ footer name ↔ Codepoint.char '\n' ∉ name := by
  simp [footer]

theorem lineFeed_not_mem_elementLine {name body : Text} :
    Codepoint.char '\n' ∉ elementLine name body ↔
      Codepoint.char '\n' ∉ name ∧ Codepoint.char '\n' ∉ body := by
  rw [elementLine, List.mem_append, List.mem_append, List.mem_cons, List.mem_cons, not_or, not_or,
    not_or, not_or, lineFeed_not_mem_header, lineFeed_not_mem_footer]
  simp only [show ¬ Codepoint.char '\n' = Codepoint.char ' ' by decide, not_false_eq_true, true_and]
  exact ⟨fun h => h.1, fun h => ⟨h, h.1⟩⟩

theorem lineFeed_mem_elementBlock (name body : Text) :
    Codepoint.char '\n' ∈ elementBlock name body :=
  List.mem_append_left _ (List.mem_append_right _ List.mem_cons_self)

theorem splitOn_elementBlock {name : Text} (hname : Codepoint.char '\n' ∉ name) (body : Text) :
    (elementBlock name body).splitOn (Codepoint.char '\n') =
      header name :: (indent body).splitOn (Codepoint.char '\n') ++ [footer name] := by
  rw [elementBlock, List.splitOn_append_cons_self, List.splitOn_append_cons_self,
    List.splitOn_eq_singleton (lineFeed_not_mem_header.2 hname),
    List.splitOn_eq_singleton (lineFeed_not_mem_footer.2 hname), List.singleton_append]

/-! ## The printed form -/

/-- The printed children, joined by line feeds. -/
def body (o : Outline) : Text := Text.join ['\n'] (o.children.map printed)

theorem printedAll_eq_map : ∀ os : List Outline, printedAll os = os.map printed
  | [] => rfl
  | o :: rest => by rw [printedAll, printedAll_eq_map rest, List.map_cons]

theorem printed_leaf {o : Outline} (h : o.children = []) : o.printed = leaf o.name := by
  obtain ⟨name, full, start, stop, children⟩ := o
  obtain rfl : children = [] := h
  rfl

theorem printed_element {o : Outline} (h : o.children ≠ []) : o.printed = element o.name o.body := by
  obtain ⟨name, full, start, stop, children⟩ := o
  have hchildren : ¬ children.isEmpty = true := by simpa using h
  rw [printed, if_neg hchildren, printedAll_eq_map]
  rfl

/-- The element as it is on one line, with a comma for every line feed of its children. -/
def flat (o : Outline) : Text := elementLine o.name (breakAs ", ".toText o.body)

theorem lineFeed_not_mem_flat {o : Outline} :
    Codepoint.char '\n' ∉ o.flat ↔ Codepoint.char '\n' ∉ o.name := by
  rw [flat, lineFeed_not_mem_elementLine]
  exact and_iff_left (not_mem_breakAs (by decide) o.body)

theorem length_flat (o : Outline) : o.flat.length =
    (header o.name).length + (breakAs ", ".toText o.body).length + (footer o.name).length + 2 :=
  length_elementLine _ _

/-- The children of an element that fits are short with line feeds too. -/
theorem length_body_lt {o : Outline} (h : o.flat.length ≤ width + 1) : o.body.length < width := by
  have hcommas := length_le_breakAs (show 0 < ", ".toText.length by decide) o.body
  rw [length_flat, header, footer] at h
  simp only [List.length_cons, List.length_append] at h
  omega

/-- The three ways in which an element is printed: on one line if it fits, with its children on
a line of their own if these are short, and with a line for each line of a child if not. -/
theorem printed_cases {o : Outline} (hchildren : o.children ≠ []) :
    o.flat.length ≤ width + 1 ∧ o.body.length < width ∧ o.printed = o.flat ∨
    width + 1 < o.flat.length ∧ o.body.length < width ∧
      o.printed = elementBlock o.name (breakAs ", ".toText o.body) ∨
    width + 1 < o.flat.length ∧ width ≤ o.body.length ∧
      o.printed = elementBlock o.name (breakAs "\n  ".toText o.body) := by
  rw [printed_element hchildren, element_eq, ← flat]
  by_cases hfits : o.flat.length ≤ width + 1
  · have hshort := length_body_lt hfits
    rw [if_pos hshort, if_pos hfits]
    exact .inl ⟨hfits, hshort, rfl⟩
  · by_cases hshort : o.body.length < width
    · rw [if_pos hshort, if_neg hfits]
      exact .inr (.inl ⟨Nat.lt_of_not_le hfits, hshort, rfl⟩)
    · rw [if_neg hshort]
      exact .inr (.inr ⟨Nat.lt_of_not_le hfits, Nat.le_of_not_lt hshort, rfl⟩)

/-- The printed form is a single line if and only if the name is and the element fits. -/
theorem lineFeed_not_mem_printed {o : Outline} (hchildren : o.children ≠ []) :
    Codepoint.char '\n' ∉ o.printed ↔ Codepoint.char '\n' ∉ o.name ∧ o.flat.length ≤ width + 1 := by
  have hblock : ∀ body, o.printed = elementBlock o.name body → Codepoint.char '\n' ∈ o.printed := by
    intro body heq
    rw [heq]
    exact lineFeed_mem_elementBlock o.name body
  rcases printed_cases hchildren with ⟨hfits, -, heq⟩ | ⟨hlong, -, heq⟩ | ⟨hlong, -, heq⟩
  · rw [heq, lineFeed_not_mem_flat]
    exact (and_iff_left hfits).symm
  · exact iff_of_false (not_not_intro (hblock _ heq)) fun h => Nat.not_le_of_lt hlong h.2
  · exact iff_of_false (not_not_intro (hblock _ heq)) fun h => Nat.not_le_of_lt hlong h.2

/-- What is printed on several lines is long, if its name is on one. -/
theorem width_le_of_broken {o : Outline} (hname : Codepoint.char '\n' ∉ o.name)
    (h : Codepoint.char '\n' ∈ o.printed) :
    width ≤ o.printed.length := by
  by_cases hchildren : o.children = []
  · rw [printed_leaf hchildren, leaf] at h
    simp [hname] at h
  · rcases printed_cases hchildren with ⟨-, -, heq⟩ | ⟨hlong, -, heq⟩ | ⟨-, hlong, heq⟩
    · rw [heq] at h
      exact absurd h (lineFeed_not_mem_flat.2 hname)
    · rw [length_flat] at hlong
      rw [heq, length_elementBlock]
      omega
    · have hblanks := length_le_breakAs (show 0 < "\n  ".toText.length by decide) o.body
      rw [heq, length_elementBlock]
      omega

/-- A child on several lines makes the children long. -/
theorem width_le_body {o c : Outline} (hc : c ∈ o.children) (hname : Codepoint.char '\n' ∉ c.name)
    (h : Codepoint.char '\n' ∈ c.printed) : width ≤ o.body.length :=
  Nat.le_trans (width_le_of_broken hname h) (Text.length_le_join ['\n'] (List.mem_map_of_mem hc))

/-! ## Lines -/

/-- Where all children are single lines, the commas are the ones between them. -/
theorem breakAs_body {o : Outline} (h : ∀ c ∈ o.children, Codepoint.char '\n' ∉ c.printed)
    (replacement : Text) :
    breakAs replacement o.body = Text.join replacement (o.children.map printed) := by
  rw [body, breakAs_join, List.map_map]
  refine congrArg (Text.join replacement) (List.map_congr_left fun c hc => ?_)
  exact breakAs_of_not_mem replacement (h c hc)

/-- With two blanks after each line feed, every line of every child is a line of its own. -/
theorem splitOn_indent_body {o : Outline} (hchildren : o.children ≠ []) :
    (indent (breakAs "\n  ".toText o.body)).splitOn (Codepoint.char '\n') =
      (o.children.flatMap fun c => c.printed.splitOn (Codepoint.char '\n')).map indent := by
  have hpieces : o.children.map printed ≠ [] := by simpa using hchildren
  have hlines := splitOn_indent List.not_mem_nil o.body
  rw [List.nil_append, List.nil_append] at hlines
  rw [hlines, body, Text.splitOn_join_lines hpieces, List.flatMap_map]

theorem splitOn_printed_of_long {o : Outline} (hname : Codepoint.char '\n' ∉ o.name)
    (hchildren : o.children ≠ []) (hlong : width ≤ o.body.length) :
    o.printed.splitOn (Codepoint.char '\n') =
      header o.name :: (o.children.flatMap fun c => c.printed.splitOn (Codepoint.char '\n')).map indent ++
        [footer o.name] := by
  rcases printed_cases hchildren with ⟨-, hshort, -⟩ | ⟨-, hshort, -⟩ | ⟨-, -, heq⟩
  · exact absurd hlong (Nat.not_le_of_lt hshort)
  · exact absurd hlong (Nat.not_le_of_lt hshort)
  · rw [heq, splitOn_elementBlock hname, splitOn_indent_body hchildren]

/-- Children that are single lines stand on one line with commas, which may be that of the
element, or on a line each. -/
theorem splitOn_printed_of_lines {o : Outline} (hname : Codepoint.char '\n' ∉ o.name)
    (hchildren : o.children ≠ []) (hlines : ∀ c ∈ o.children, Codepoint.char '\n' ∉ c.printed) :
    o.printed.splitOn (Codepoint.char '\n') = [elementLine o.name (Text.join ", ".toText (o.children.map printed))] ∨
    o.printed.splitOn (Codepoint.char '\n') =
      [header o.name, indent (Text.join ", ".toText (o.children.map printed)), footer o.name] ∨
    o.printed.splitOn (Codepoint.char '\n') =
      header o.name :: o.children.map (fun c => indent c.printed) ++ [footer o.name] := by
  have hcommas := breakAs_body hlines ", ".toText
  rcases printed_cases hchildren with ⟨-, -, heq⟩ | ⟨-, -, heq⟩ | ⟨-, hlong, -⟩
  · have hflat := lineFeed_not_mem_flat.2 hname
    rw [heq, List.splitOn_eq_singleton hflat, flat, hcommas]
    exact .inl rfl
  · have hline : Codepoint.char '\n' ∉ indent (breakAs ", ".toText o.body) := by
      simpa [indent] using not_mem_breakAs (show Codepoint.char '\n' ∉ ", ".toText by decide) o.body
    rw [heq, splitOn_elementBlock hname, List.splitOn_eq_singleton hline, hcommas]
    exact .inr (.inl rfl)
  · have hsingle : (o.children.flatMap fun c => c.printed.splitOn (Codepoint.char '\n')) =
        o.children.map printed := by
      rw [← List.flatMap_map]
      exact Text.flatMap_splitOn (List.forall_mem_map.2 hlines)
    rw [splitOn_printed_of_long hname hchildren hlong, hsingle, List.map_map]
    exact .inr (.inr rfl)

/-! ## What is left without blanks, commas and line feeds -/

/-- Whether a character is none of those that a printed form puts in. -/
def isInk (c : Codepoint) : Bool := !(c == ' ' || c == '\n' || c == ',')

mutual

/-- The tags of an outline with nothing between them. -/
def tags : Outline → Text
  | ⟨name, _, _, _, children⟩ =>
    if children.isEmpty then leaf name else header name ++ tagsAll children ++ footer name

/-- The tags of outlines with nothing between them. -/
def tagsAll : List Outline → Text
  | [] => []
  | o :: rest => o.tags ++ tagsAll rest

end

/-- The name has nothing that a printed form puts in. -/
def Plain (name : Text) :
    Prop := Codepoint.char '\n' ∉ name ∧ Codepoint.char ',' ∉ name ∧ Codepoint.char ' ' ∉ name

theorem Plain.filter {name : Text} (h : Plain name) : name.filter isInk = name := by
  obtain ⟨hfeed, hcomma, hblank⟩ := h
  refine List.filter_eq_self.2 fun c hc => ?_
  simp only [isInk, Bool.not_eq_true', Bool.or_eq_false_iff, beq_eq_false_iff_ne]
  exact ⟨⟨fun h => hblank (h ▸ hc), fun h => hfeed (h ▸ hc)⟩, fun h => hcomma (h ▸ hc)⟩

theorem filter_breakAs {replacement : Text} (h : replacement.filter isInk = []) : ∀ text : Text,
    (breakAs replacement text).filter isInk = text.filter isInk
  | [] => rfl
  | c :: text => by
    by_cases hc : c = '\n'
    · rw [hc, breakAs_feed, List.filter_append, h, List.nil_append, filter_breakAs h text]
      rfl
    · rw [breakAs_cons hc, List.filter_cons, List.filter_cons, filter_breakAs h text]

theorem filter_join {separator : Text} (h : separator.filter isInk = []) : ∀ pieces : List Text,
    (Text.join separator pieces).filter isInk = pieces.flatMap (List.filter isInk)
  | [] => rfl
  | [piece] => (List.flatMap_singleton (List.filter isInk) piece).symm
  | piece :: next :: rest => by
    rw [Text.join_cons_cons, List.filter_append, List.filter_append, h, List.append_nil,
      filter_join h (next :: rest), ← List.flatMap_cons]

theorem Plain.filter_header {name : Text} (h : Plain name) : (header name).filter isInk = header name := by
  rw [header, List.filter_cons_of_pos (by decide), List.filter_append, h.filter]
  rfl

theorem Plain.filter_footer {name : Text} (h : Plain name) : (footer name).filter isInk = footer name := by
  rw [footer, List.filter_cons_of_pos (by decide), List.filter_cons_of_pos (by decide),
    List.filter_append, h.filter]
  rfl

theorem Plain.filter_leaf {name : Text} (h : Plain name) : (leaf name).filter isInk = leaf name := by
  rw [leaf, List.filter_cons_of_pos (by decide), List.filter_append, h.filter]
  rfl

theorem Plain.filter_elementLine {name : Text} (h : Plain name) (body : Text) :
    (elementLine name body).filter isInk = header name ++ body.filter isInk ++ footer name := by
  rw [elementLine, List.filter_append, List.filter_append, List.filter_cons_of_neg (by decide),
    List.filter_cons_of_neg (by decide), h.filter_header, h.filter_footer]

theorem Plain.filter_elementBlock {name : Text} (h : Plain name) (body : Text) :
    (elementBlock name body).filter isInk = header name ++ body.filter isInk ++ footer name := by
  rw [elementBlock, indent, List.filter_append, List.filter_append, List.filter_cons_of_neg (by decide),
    List.filter_cons_of_neg (by decide), List.filter_cons_of_neg (by decide),
    List.filter_cons_of_neg (by decide), h.filter_header, h.filter_footer]

/-- Whichever way an element is printed, nothing but its tags and its children is left. -/
theorem Plain.filter_element {name : Text} (h : Plain name) (children : Text) :
    (element name children).filter isInk = header name ++ children.filter isInk ++ footer name := by
  have hcommas : ", ".toText.filter isInk = [] := by decide
  have hblanks : "\n  ".toText.filter isInk = [] := by decide
  rw [element_eq]
  split
  · split
    · rw [h.filter_elementLine, filter_breakAs hcommas]
    · rw [h.filter_elementBlock, filter_breakAs hcommas]
  · rw [h.filter_elementBlock, filter_breakAs hblanks]

mutual

/-- Without what it puts in, a printed form is the tags of its outline. -/
theorem filter_printed : ∀ {o : Outline}, (∀ x ∈ o.nodes, Plain x.name) →
    o.printed.filter isInk = o.tags
  | ⟨name, full, start, stop, children⟩, h => by
    rw [nodes] at h
    obtain ⟨hname, hbelow⟩ := List.forall_mem_cons.1 h
    rw [printed, tags]
    split
    · exact hname.filter_leaf
    · rw [hname.filter_element, filter_join (by decide), filter_printedAll hbelow]

theorem filter_printedAll : ∀ {os : List Outline}, (∀ x ∈ nodesAll os, Plain x.name) →
    (printedAll os).flatMap (List.filter isInk) = tagsAll os
  | [], _ => rfl
  | o :: rest, h => by
    rw [nodesAll] at h
    obtain ⟨hfirst, hrest⟩ := List.forall_mem_append.1 h
    rw [printedAll, tagsAll, List.flatMap_cons, filter_printed hfirst, filter_printedAll hrest]

end

/-! ## The layout -/

/-- How an outline is printed whose names have no line feed, comma or blank.  A leaf is one tag.
If a child is printed on several lines, all lines of all children stand between the lines of
the two tags, two columns further to the right.  If no child is, the children stand on one
line with commas, which is that of the element or a line of its own between the tags, or on a
line each.  Without blanks, line feeds and commas, the tags are left. -/
theorem printed_layout {o : Outline} (h : ∀ x ∈ o.nodes,
      Codepoint.char '\n' ∉ x.name ∧ Codepoint.char ',' ∉ x.name ∧ Codepoint.char ' ' ∉ x.name) :
    (o.children = [] → o.printed = leaf o.name) ∧
    ((∃ c ∈ o.children, Codepoint.char '\n' ∈ c.printed) →
      o.printed.splitOn (Codepoint.char '\n') =
        header o.name :: (o.children.flatMap fun c => c.printed.splitOn (Codepoint.char '\n')).map indent ++
          [footer o.name]) ∧
    (o.children ≠ [] → (∀ c ∈ o.children, Codepoint.char '\n' ∉ c.printed) →
      o.printed.splitOn (Codepoint.char '\n') =
        [elementLine o.name (Text.join ", ".toText (o.children.map printed))] ∨
      o.printed.splitOn (Codepoint.char '\n') =
        [header o.name, indent (Text.join ", ".toText (o.children.map printed)), footer o.name] ∨
      o.printed.splitOn (Codepoint.char '\n') =
        header o.name :: o.children.map (fun c => indent c.printed) ++ [footer o.name]) ∧
    o.printed.filter isInk = o.tags := by
  have hname := (h o o.self_mem_nodes).1
  refine ⟨printed_leaf, ?_, splitOn_printed_of_lines hname, filter_printed h⟩
  rintro ⟨c, hc, hbroken⟩
  have hcname := (h c (child_mem_nodes hc)).1
  exact splitOn_printed_of_long hname (List.ne_nil_of_mem hc) (width_le_body hc hcname hbroken)

/-- A shelf with twelve books in a row and one that lies on them. -/
def shelf : Outline :=
  ⟨"shelf".toText, [], 0, 0, [⟨"row".toText, [], 0, 0,
    List.replicate 12 ⟨"book".toText, [], 0, 0, []⟩⟩, ⟨"book".toText, [], 0, 0, []⟩]⟩

/-- The row is too long for a line, so all lines of the row and the book beside it are lines of
the shelf. -/
theorem printed_layout_shelf :
    (∀ x ∈ shelf.nodes,
      Codepoint.char '\n' ∉ x.name ∧ Codepoint.char ',' ∉ x.name ∧ Codepoint.char ' ' ∉ x.name) ∧
    (∃ c ∈ shelf.children, Codepoint.char '\n' ∈ c.printed) ∧
    shelf.printed.splitOn (Codepoint.char '\n') =
      header shelf.name :: (shelf.children.flatMap fun c => c.printed.splitOn (Codepoint.char '\n')).map indent ++
        [footer shelf.name] ∧
    shelf.printed.filter isInk = shelf.tags ∧
      (shelf.printed.splitOn (Codepoint.char '\n')).length = 17 := by
  have hnames : ∀ x ∈ shelf.nodes,
      Codepoint.char '\n' ∉ x.name ∧ Codepoint.char ',' ∉ x.name ∧ Codepoint.char ' ' ∉ x.name := by decide
  have hbroken : ∃ c ∈ shelf.children, Codepoint.char '\n' ∈ c.printed := by decide
  obtain ⟨-, hlines, -, hink⟩ := printed_layout hnames
  exact ⟨hnames, hbroken, hlines hbroken, hink, by decide +kernel⟩

/-! ## The width -/

/-- An element with children is printed on one line if and only if its name is on one line and
the line of the element, with a comma for every line feed of a child, has at most one column
more than `width`.  If no name has a line feed, that is to say that every child is printed on
one line and the line of these printed forms has at most so many columns. -/
theorem printed_line_iff {o : Outline} (hchildren : o.children ≠ []) :
    (Codepoint.char '\n' ∉ o.printed ↔ Codepoint.char '\n' ∉ o.name ∧ o.flat.length ≤ width + 1) ∧
    (Codepoint.char '\n' ∉ o.printed → o.printed = o.flat) ∧
    ((∀ x ∈ o.nodes, Codepoint.char '\n' ∉ x.name) →
      (Codepoint.char '\n' ∉ o.printed ↔ (∀ c ∈ o.children, Codepoint.char '\n' ∉ c.printed) ∧
        (elementLine o.name (Text.join ", ".toText (o.children.map printed))).length ≤ width + 1)) := by
  have hline := lineFeed_not_mem_printed hchildren
  refine ⟨hline, fun h => ?_, fun hnames => ?_⟩
  · rcases printed_cases hchildren with ⟨-, -, heq⟩ | ⟨hlong, -, -⟩ | ⟨hlong, -, -⟩
    · exact heq
    · exact absurd (hline.1 h).2 (Nat.not_le_of_lt hlong)
    · exact absurd (hline.1 h).2 (Nat.not_le_of_lt hlong)
  · have hflat : (∀ c ∈ o.children, Codepoint.char '\n' ∉ c.printed) →
        elementLine o.name (Text.join ", ".toText (o.children.map printed)) = o.flat := by
      intro hlines
      rw [flat, breakAs_body hlines]
    rw [hline]
    constructor
    · rintro ⟨-, hfits⟩
      have hlines : ∀ c ∈ o.children, Codepoint.char '\n' ∉ c.printed := by
        intro c hc hbroken
        have hlong := width_le_body hc (hnames c (child_mem_nodes hc)) hbroken
        exact absurd hlong (Nat.not_le_of_lt (length_body_lt hfits))
      exact ⟨hlines, by rw [hflat hlines]; exact hfits⟩
    · rintro ⟨hlines, hfits⟩
      exact ⟨hnames o o.self_mem_nodes, by rw [← hflat hlines]; exact hfits⟩

/-- An element whose line has 81 columns. -/
def edge : Outline := ⟨['a'], [], 0, 0, [⟨List.replicate 69 'b', [], 0, 0, []⟩]⟩

/-- The element at the edge is printed on one line, which has one column more than `width`. -/
theorem printed_line_iff_edge :
    edge.children ≠ [] ∧ (∀ x ∈ edge.nodes, Codepoint.char '\n' ∉ x.name) ∧
    Codepoint.char '\n' ∉ edge.printed ∧ edge.printed = edge.flat ∧ edge.printed.length = width + 1 := by
  have hchildren : edge.children ≠ [] := by decide
  have hnames : ∀ x ∈ edge.nodes, Codepoint.char '\n' ∉ x.name := by decide
  obtain ⟨-, hflat, hline⟩ := printed_line_iff hchildren
  have hsingle : Codepoint.char '\n' ∉ edge.printed := (hline hnames).2 ⟨by decide, by decide⟩
  exact ⟨hchildren, hnames, hsingle, hflat hsingle, by decide⟩

/-- So `width` is not the limit of a line. -/
theorem not_printed_within_width : ¬ ∀ o : Outline, o.children ≠ [] →
    (Codepoint.char '\n' ∉ o.printed ↔ (∀ c ∈ o.children, Codepoint.char '\n' ∉ c.printed) ∧
      (elementLine o.name (Text.join ", ".toText (o.children.map printed))).length ≤ width) := by
  intro h
  have hline : Codepoint.char '\n' ∉ edge.printed := by decide
  exact absurd ((h edge (by decide)).1 hline).2 (by decide)

end Outline

end Pegboard
