import Mathlib.Data.List.Basic
import Pegboard.Proofs.Node.Preorder
import Pegboard.Proofs.Text.Quoted

/-!
# A listing gives its tree away

The listing of a tree has a line for each node in preorder.  A line starts with four blanks
for each ancestor, and after them come the kind, the name and the text.  Each of these ends
where the next one begins: the blanks at the bracket, the kind at a blank, the name at its
second quote, and the text is in quotes itself.  So the line tells all that likeness asks
of the node, and the lines tell the tree up to likeness (`listing_tells`).

A name with a double quote could look like the end of the name, and one with a line feed
like the end of the line.  No label of a rule has either.
-/

namespace Pegboard

/-! ## Pieces put together -/

/-- What stands before the first place of a character, and what stands after it. -/
theorem Text.append_cons_inj {c : Codepoint} :
    ∀ {a b x y : Text}, c ∉ a → c ∉ b → a ++ c :: x = b ++ c :: y →
    a = b ∧ x = y
  | [], [], _, _, _, _, h => ⟨rfl, (List.cons.inj h).2⟩
  | [], d :: b, _, _, _, hb, h => absurd ((List.cons.inj h).1 ▸ List.mem_cons_self) hb
  | d :: a, [], _, _, ha, _, h => absurd ((List.cons.inj h).1 ▸ List.mem_cons_self) ha
  | d :: a, d' :: b, x, y, ha, hb, h => by
    obtain ⟨hd, htail⟩ := List.cons.inj h
    obtain ⟨hab, hxy⟩ := append_cons_inj (fun hc => ha (List.mem_cons_of_mem d hc))
      (fun hc => hb (List.mem_cons_of_mem d' hc)) htail
    exact ⟨by rw [hd, hab], hxy⟩

theorem Text.join_cons_cons (separator piece next : Text) (rest : List Text) :
    join separator (piece :: next :: rest) = piece ++ separator ++ join separator (next :: rest) := rfl

/-- The lines of joined pieces are those of the pieces, one after the other. -/
theorem Text.splitOn_join_lines : ∀ {pieces : List Text}, pieces ≠ [] →
    (join ['\n'] pieces).splitOn (Codepoint.char '\n') = pieces.flatMap (List.splitOn (Codepoint.char '\n'))
  | [], h => absurd rfl h
  | [piece], _ => (List.flatMap_singleton (List.splitOn (Codepoint.char '\n')) piece).symm
  | piece :: next :: rest, _ => by
    rw [join_cons_cons, List.append_assoc, List.singleton_append, List.splitOn_append_cons_self,
      splitOn_join_lines (List.cons_ne_nil next rest), ← List.flatMap_cons]

/-- Pieces without line feeds are lines. -/
theorem Text.flatMap_splitOn {lines : List Text} (h : ∀ l ∈ lines, Codepoint.char '\n' ∉ l) :
    lines.flatMap (List.splitOn (Codepoint.char '\n')) = lines := by
  rw [List.flatMap_congr fun l hl => List.splitOn_eq_singleton (h l hl), ← List.map_eq_flatMap, List.map_id']

/-- Lines that are joined are found again. -/
theorem Text.splitOn_join {lines : List Text} (h : ∀ l ∈ lines, Codepoint.char '\n' ∉ l)
    (hne : lines ≠ []) :
    (Text.join ['\n'] lines).splitOn (Codepoint.char '\n') = lines := by
  rw [splitOn_join_lines hne, flatMap_splitOn h]

namespace Kind

theorem label_injective : ∀ {k k' : Kind}, k.label = k'.label → k = k' := by
  intro k k' h
  cases k <;> cases k' <;> first | rfl | exact absurd h (by decide)

theorem label_plain (k : Kind) : Codepoint.char ' ' ∉ k.label ∧ Codepoint.char '\n' ∉ k.label := by
  cases k <;> decide

end Kind

namespace Node

/-! ## One line -/

/-- The name in a line, with what follows it. -/
def calledLine (name text : Text) : Text :=
  (if name.isEmpty then [] else " called \"".toText ++ name ++ [.char '"']) ++ " matching ".toText ++
    text.quoted ++ [.char '>']

theorem line_eq (depth : Nat) (kind : Kind) (name text : Text) :
    line depth kind name text =
      List.replicate (4 * depth) (Codepoint.char ' ') ++
        .char '<' :: (kind.label ++ calledLine name text) := by
  simp only [line, calledLine, List.cons_append, List.append_assoc]

theorem calledLine_nil (text : Text) :
    calledLine [] text = .char ' ' :: ("matching ".toText ++ (text.quoted ++ [.char '>'])) := by
  simp only [calledLine, List.isEmpty_nil, if_true, List.nil_append, List.append_assoc]
  rfl

theorem calledLine_cons (c : Codepoint) (name text : Text) :
    calledLine (c :: name) text =
      .char ' ' :: ("called \"".toText ++
        ((c :: name) ++ .char '"' :: (" matching ".toText ++ (text.quoted ++ [.char '>'])))) := by
  simp only [calledLine, List.isEmpty_cons, Bool.false_eq_true, if_false, List.append_assoc,
    List.cons_append, List.nil_append]
  rfl

theorem calledLine_blank (name text : Text) : ∃ rest, calledLine name text = .char ' ' :: rest := by
  cases name with
  | nil => exact ⟨_, calledLine_nil text⟩
  | cons c name => exact ⟨_, calledLine_cons c name text⟩

/-- The name and the text can be told from the end of a line. -/
theorem calledLine_injective {name name' text text' : Text}
    (hname : Codepoint.char '"' ∉ name) (hname' : Codepoint.char '"' ∉ name')
    (h : calledLine name text = calledLine name' text') : name = name' ∧ text = text' := by
  have hquoted : text.quoted ++ [.char '>'] = text'.quoted ++ [.char '>'] → text = text' :=
    fun h => Text.quoted_injective (List.append_cancel_right h)
  cases name with
  | nil =>
    cases name' with
    | nil =>
      rw [calledLine_nil, calledLine_nil] at h
      exact ⟨rfl, hquoted (List.append_cancel_left (List.cons.inj h).2)⟩
    | cons d name' =>
      rw [calledLine_nil, calledLine_cons] at h
      exact absurd (List.cons.inj (List.cons.inj h).2).1 (by decide)
  | cons c name =>
    cases name' with
    | nil =>
      rw [calledLine_nil, calledLine_cons] at h
      exact absurd (List.cons.inj (List.cons.inj h).2).1 (by decide)
    | cons d name' =>
      rw [calledLine_cons, calledLine_cons] at h
      obtain ⟨heq, htext⟩ := Text.append_cons_inj hname hname' (List.append_cancel_left (List.cons.inj h).2)
      exact ⟨heq, hquoted (List.append_cancel_left htext)⟩

/-- A line tells the depth, the name, the text and the kind of its node. -/
theorem line_injective {depth depth' : Nat} {kind kind' : Kind} {name name' text text' : Text}
    (hname : Codepoint.char '"' ∉ name) (hname' : Codepoint.char '"' ∉ name')
    (h : line depth kind name text = line depth' kind' name' text') :
    depth = depth' ∧ kind = kind' ∧ name = name' ∧ text = text' := by
  have hblank : ∀ n : Nat, Codepoint.char '<' ∉ List.replicate n (Codepoint.char ' ') :=
    fun n hmem => absurd (List.eq_of_mem_replicate hmem) (by decide)
  rw [line_eq, line_eq] at h
  obtain ⟨hindent, hrest⟩ := Text.append_cons_inj (hblank _) (hblank _) h
  have hdepth := congrArg List.length hindent
  rw [List.length_replicate, List.length_replicate] at hdepth
  obtain ⟨rest, hcalled⟩ := calledLine_blank name text
  obtain ⟨rest', hcalled'⟩ := calledLine_blank name' text'
  rw [hcalled, hcalled'] at hrest
  obtain ⟨hlabel, hrests⟩ := Text.append_cons_inj kind.label_plain.1 kind'.label_plain.1 hrest
  obtain ⟨hnames, htexts⟩ := calledLine_injective hname hname' (by rw [hcalled, hcalled', hrests])
  exact ⟨by omega, Kind.label_injective hlabel, hnames, htexts⟩

theorem lineFeed_not_mem_line {depth : Nat} {kind : Kind} {name text : Text}
    (hname : Codepoint.char '\n' ∉ name) :
    Codepoint.char '\n' ∉ line depth kind name text := by
  have hquoted := Text.lineFeed_not_mem_quoted text
  have hkind := kind.label_plain.2
  have hindent : Codepoint.char '\n' ∉ List.replicate (4 * depth) (Codepoint.char ' ') :=
    fun hmem => absurd (List.eq_of_mem_replicate hmem) (by decide)
  rw [line_eq]
  cases name with
  | nil =>
    have hmatching : Codepoint.char '\n' ∉ "matching ".toText := by decide
    rw [calledLine_nil]
    simp [hindent, hkind, hquoted, hmatching]
  | cons c name =>
    rw [calledLine_cons]
    have hcalled : Codepoint.char '\n' ∉ "called \"".toText ∧
        Codepoint.char '\n' ∉ " matching ".toText := by
      decide
    simp only [List.mem_cons, not_or] at hname
    simp [hindent, hkind, hquoted, hname.1, hname.2, hcalled]

/-! ## All lines -/

/-- The lines of a tree are found again in its listing. -/
theorem splitOn_listing {n : Node} (h : ∀ m ∈ n.nodes, Codepoint.char '\n' ∉ m.name) :
    n.listing.splitOn (Codepoint.char '\n') = (n.preorder 0).map lineOf := by
  rw [listing, lines_eq, Text.splitOn_join]
  · rw [← map_snd_preorder 0] at h
    refine List.forall_mem_map.2 fun p hp => ?_
    exact lineFeed_not_mem_line (h p.2 (List.mem_map_of_mem hp))
  · rw [preorder_eq]
    exact List.cons_ne_nil _ _

/-- Where the lines of two trees are the same, the faces are. -/
theorem faces_of_lines : ∀ {ps qs : List (Nat × Node)}, (∀ p ∈ ps, Codepoint.char '"' ∉ p.2.name) →
    (∀ q ∈ qs, Codepoint.char '"' ∉ q.2.name) → ps.map lineOf = qs.map lineOf →
    ps.map (Prod.map id face) = qs.map (Prod.map id face)
  | [], [], _, _, _ => rfl
  | [], _ :: _, _, _, h => by cases h
  | _ :: _, [], _, _, h => by cases h
  | p :: ps, q :: qs, hps, hqs, h => by
    obtain ⟨hline, hlines⟩ := List.cons.inj h
    obtain ⟨hp, hps⟩ := List.forall_mem_cons.1 hps
    obtain ⟨hq, hqs⟩ := List.forall_mem_cons.1 hqs
    obtain ⟨hdepth, hkind, hname, htext⟩ := line_injective hp hq hline
    rw [List.map_cons, List.map_cons, faces_of_lines hps hqs hlines]
    simp only [Prod.map, id_eq, face, hdepth, hkind, hname, htext]

/-- Trees that are alike have the same listing, for a line shows no more than a face. -/
theorem listing_of_same {n m : Node} (h : n.same m = true) : n.listing = m.listing := by
  have hlines := congrArg (List.map fun r : Nat × Text × Text × Kind => line r.1 r.2.2.2 r.2.2.1 r.2.1)
    (same_iff_faces.1 h)
  rw [List.map_map, List.map_map] at hlines
  rw [listing, listing, lines_eq, lines_eq]
  exact congrArg (Text.join ['\n']) hlines

/-- Two trees whose names have neither a double quote nor a line feed have the same listing
if and only if they are alike.  Such a listing, cut at its line feeds, has one line for each
node in preorder, and the line of a node starts with four blanks for each of its ancestors
and an angle bracket. -/
theorem listing_tells {n m : Node}
    (hn : ∀ c ∈ n.nodes, Codepoint.char '"' ∉ c.name ∧ Codepoint.char '\n' ∉ c.name)
    (hm : ∀ c ∈ m.nodes, Codepoint.char '"' ∉ c.name ∧ Codepoint.char '\n' ∉ c.name) :
    (n.listing = m.listing ↔ n.same m = true) ∧
    n.listing.splitOn (Codepoint.char '\n') = (n.preorder 0).map lineOf ∧
    ∀ p ∈ n.preorder 0, ∃ rest,
      lineOf p = List.replicate (4 * p.1) (Codepoint.char ' ') ++ .char '<' :: rest := by
  have hfeeds := splitOn_listing fun c hc => (hn c hc).2
  refine ⟨⟨fun h => ?_, listing_of_same⟩, hfeeds, fun p _ => ⟨_, line_eq _ _ _ _⟩⟩
  have hlines : (n.preorder 0).map lineOf = (m.preorder 0).map lineOf := by
    rw [← hfeeds, h, splitOn_listing fun c hc => (hm c hc).2]
  rw [← map_snd_preorder 0] at hn hm
  exact same_iff_faces.2 (faces_of_lines (fun p hp => (hn p.2 (List.mem_map_of_mem hp)).1)
    (fun q hq => (hm q.2 (List.mem_map_of_mem hq)).1) hlines)

/-- A line feed and both quotes, matched one after the other behind another text. -/
def marks (before : Text) : Node :=
  ⟨0, .sequence, "marks".toText, before ++ "\n\"'".toText, before.length, before.length + 3,
    [⟨1, .literal, [], before ++ "\n\"'".toText, before.length, before.length + 1, []⟩,
     ⟨2, .regex, "quotes".toText, before ++ "\n\"'".toText, before.length + 1, before.length + 3, []⟩]⟩

/-- Behind another text the marks have the same listing, and it has three lines although one of
the texts in it is a line feed. -/
theorem listing_tells_marks :
    (∀ c ∈ (marks []).nodes, Codepoint.char '"' ∉ c.name ∧ Codepoint.char '\n' ∉ c.name) ∧
    (∀ c ∈ (marks ['x']).nodes, Codepoint.char '"' ∉ c.name ∧ Codepoint.char '\n' ∉ c.name) ∧
    ((marks []).listing = (marks ['x']).listing ↔ (marks []).same (marks ['x']) = true) ∧
    (marks []).same (marks ['x']) = true ∧
    (marks []).listing.splitOn (Codepoint.char '\n') = ((marks []).preorder 0).map lineOf ∧
    ((marks []).listing.splitOn (Codepoint.char '\n')).length = 3 := by
  have hnames : ∀ c ∈ (marks []).nodes,
      Codepoint.char '"' ∉ c.name ∧ Codepoint.char '\n' ∉ c.name := by decide
  have hnames' : ∀ c ∈ (marks ['x']).nodes,
      Codepoint.char '"' ∉ c.name ∧ Codepoint.char '\n' ∉ c.name := by decide
  obtain ⟨htells, hlines, -⟩ := listing_tells hnames hnames'
  have hcount : (((marks []).preorder 0).map lineOf).length = 3 := rfl
  exact ⟨hnames, hnames', htells, rfl, hlines, by rw [hlines, hcount]⟩

end Node

end Pegboard
