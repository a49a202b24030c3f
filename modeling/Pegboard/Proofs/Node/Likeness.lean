import Pegboard.Proofs.Node.Preorder
import Pegboard.Regex.Engine

/-!
# What likeness says about matches

Likeness of trees looks at texts, names and kinds, and not at where a match stood.  For the
trees of matches it still says where everything stood: they have the same rows once the
one is moved along its text by the distance of the two starts.

A node that tiles is as long as its text.  Its children stand in a chain, so each of them
starts where the lengths of those before it say.  Going down the two trees side by side,
the distance between two nodes is the same everywhere (`alongside_displaced`).

The other way round, rows say where the text of each node is in that of the root
(`faces_eq_map_rows`).
-/

namespace Pegboard

open Store

/-! ## Parts of texts -/

/-- A part of a text that does not go past its end is as long as its bounds say. -/
theorem Text.length_slice {text : Text} {start stop : Int} (h : EndsFrom text start stop)
    (hstart : 0 ≤ start) : ((text.slice start stop).length : Int) = stop - start := by
  obtain ⟨hle, hmax⟩ := h
  obtain ⟨start, rfl⟩ := Int.eq_ofNat_of_zero_le hstart
  obtain ⟨stop, rfl⟩ := Int.eq_ofNat_of_zero_le (Int.le_trans hstart hle)
  rw [slice_natCast, List.length_drop, List.length_take]
  omega

/-- A part of a text that lies within another part is a part of that. -/
theorem Text.slice_slice (text : Text) {start stop a b : Int} (hstart : 0 ≤ start)
    (ha : start ≤ a) (hab : a ≤ b) (hb : b ≤ stop) :
    text.slice a b = (text.slice start stop).slice (a - start) (b - start) := by
  obtain ⟨start, rfl⟩ := Int.eq_ofNat_of_zero_le hstart
  obtain ⟨k, hk⟩ := Int.eq_ofNat_of_zero_le (Int.sub_nonneg_of_le ha)
  obtain ⟨l, hl⟩ := Int.eq_ofNat_of_zero_le (Int.sub_nonneg_of_le (Int.le_trans ha hab))
  obtain ⟨stop, rfl⟩ := Int.eq_ofNat_of_zero_le (Int.le_trans (Int.le_trans hstart ha) (Int.le_trans hab hb))
  obtain rfl : a = ((start + k : Nat) : Int) := by omega
  obtain rfl : b = ((start + l : Nat) : Int) := by omega
  rw [hk, hl]
  simp only [slice_natCast]
  have hlstop : start + l ≤ stop := Int.ofNat_le.1 hb
  rw [← List.drop_drop, List.take_drop, List.take_take, Nat.min_eq_left hlstop]

namespace Node

variable {store store' : Store} {text text' : Text}

/-! ## From faces to places -/

/-- A node that tiles is as long as its text. -/
theorem Tiles.length_text [Platform] {n : Node} (h : n.Tiles store text) (hstart : 0 ≤ n.start) :
    (n.text.length : Int) = n.stop - n.start := by
  rw [Node.text, h.text_eq]
  exact Text.length_slice h.within hstart

/-- A node is another one moved along the text by a distance. -/
def Displaced (distance : Int) (n m : Node) : Prop :=
  n.kind = m.kind ∧ n.name = m.name ∧ n.start = m.start + distance ∧ n.stop = m.stop + distance

/-- Nodes that tile and have the same face are displaced by the distance of their starts. -/
theorem displaced_of_face [Platform] {n m : Node} (hn : n.Tiles store text)
    (hm : m.Tiles store' text') (hstart : 0 ≤ n.start) (hstart' : 0 ≤ m.start) (h : n.face = m.face) :
    Displaced (n.start - m.start) n m := by
  have htext : n.text = m.text := congrArg Prod.fst h
  have hlength := hn.length_text hstart
  have hlength' := hm.length_text hstart'
  rw [htext] at hlength
  exact ⟨congrArg (·.2.2) h, congrArg (·.2.1) h, by omega, by omega⟩

/-- In two chains that run side by side the distance is the same from beginning to end. -/
theorem forall₂_displaced {depth : Nat} {distance : Int} {ns ms : List Node}
    (h : List.Forall₂ (Alongside (fun a b => a.face = b.face) depth) ns ms)
    (hdisplaced : ∀ a ∈ ns, ∀ b ∈ ms, 0 ≤ a.start → 0 ≤ b.start →
      Alongside (fun a b => a.face = b.face) depth a b →
      Alongside (Displaced (a.start - b.start)) depth a b)
    (hle : ∀ a ∈ ns, a.start ≤ a.stop) (hle' : ∀ b ∈ ms, b.start ≤ b.stop) :
    ∀ {pos pos' stop stop' : Int}, Chained pos ns stop → Chained pos' ms stop' → 0 ≤ pos → 0 ≤ pos' →
      pos = pos' + distance → List.Forall₂ (Alongside (Displaced distance) depth) ns ms := by
  induction h with
  | nil => exact fun _ _ _ _ _ => .nil
  | @cons a b ns ms hab _ ih =>
    rintro pos pos' stop stop' ⟨rfl, hchain⟩ ⟨rfl, hchain'⟩ hpos hpos' hdistance
    have hfirst := hdisplaced a List.mem_cons_self b List.mem_cons_self hpos hpos' hab
    rw [show a.start - b.start = distance by omega] at hfirst
    obtain ⟨hale, hle⟩ := List.forall_mem_cons.1 hle
    obtain ⟨hble, hle'⟩ := List.forall_mem_cons.1 hle'
    refine .cons hfirst (ih (fun c hc d hd => ?_) hle hle' hchain hchain'
      (Int.le_trans hpos hale) (Int.le_trans hpos' hble) hfirst.root.2.2.2)
    exact hdisplaced c (List.mem_cons_of_mem a hc) d (List.mem_cons_of_mem b hd)

/-- Two trees that tile and have the same faces side by side are displaced as their roots
are. -/
theorem alongside_displaced [Platform] {depth : Nat} {n m : Node}
    (hn : ∀ c ∈ n.nodes, c.Tiles store text) (hm : ∀ c ∈ m.nodes, c.Tiles store' text')
    (hstart : 0 ≤ n.start) (hstart' : 0 ≤ m.start)
    (h : Alongside (fun a b => a.face = b.face) depth n m) :
    Alongside (Displaced (n.start - m.start)) depth n m := by
  induction n using induct generalizing depth m with
  | _ n ih =>
    obtain ⟨hroot, hchildren⟩ := alongside_iff.1 h
    obtain ⟨hnode, hbelow⟩ := tiles_child hn
    obtain ⟨hnode', hbelow'⟩ := tiles_child hm
    refine alongside_iff.2 ⟨displaced_of_face hnode hnode' hstart hstart' hroot, ?_⟩
    have hkind : n.isLeaf = m.isLeaf := by rw [isLeaf, isLeaf, show n.kind = m.kind from congrArg (·.2.2) hroot]
    rcases hnode.chained with ⟨-, hnil⟩ | ⟨hleaf, hchain⟩
    · rw [hnil] at hchildren ⊢
      rw [List.forall₂_nil_left_iff.1 hchildren]
      exact .nil
    · rcases hnode'.chained with ⟨hleaf', -⟩ | ⟨-, hchain'⟩
      · rw [hkind, hleaf'] at hleaf
        cases hleaf
      · refine forall₂_displaced hchildren (fun c hc d hd hcstart hdstart hcd => ?_)
          (fun c hc => (tiles_child (hbelow c hc)).1.within.1)
          (fun d hd => (tiles_child (hbelow' d hd)).1.within.1) hchain hchain' hstart hstart' (by omega)
        exact ih c hc (hbelow c hc) (hbelow' d hd) hcstart hdstart hcd

/-- A row of a tree that stands so much further on in its text. -/
def Row.shift (distance : Int) (r : Row) : Row :=
  { r with start := r.start + distance, stop := r.stop + distance }

theorem rows_of_alongside {distance : Int} {n m : Node} (h : Alongside (Displaced distance) 0 n m) :
    n.rows 0 = (m.rows 0).map (Row.shift distance) := by
  rw [rows_eq, rows_eq, List.map_map, ← List.forall₂_eq_eq_eq, List.forall₂_map_left_iff,
    List.forall₂_map_right_iff]
  refine List.Forall₂.imp (fun p q hpq => ?_) h
  obtain ⟨hdepth, hkind, hname, hstart, hstop⟩ := hpq
  simp only [row, Function.comp_apply, Row.shift, hdepth, hkind, hname, hstart, hstop]

/-! ## From places to faces -/

/-- The face of the node of a row, with its depth, in a tree that starts at an offset and has
the given text. -/
def Row.faceIn (start : Int) (text : Text) (r : Row) : Nat × Text × Text × Kind :=
  (r.depth, text.slice (r.start - start) (r.stop - start), r.name, r.kind)

theorem Row.faceIn_shift (distance start : Int) (text : Text) (r : Row) :
    (r.shift distance).faceIn (start + distance) text = r.faceIn start text := by
  simp only [faceIn, shift, Int.add_sub_add_right]

/-- The rows of a tree and the text of its root tell the faces of its nodes. -/
theorem faces_eq_map_rows [Platform] {n : Node} (h : ∀ c ∈ n.nodes, c.Tiles store text)
    (hstart : 0 ≤ n.start) :
    (n.preorder 0).map (Prod.map id face) = (n.rows 0).map (Row.faceIn n.start n.text) := by
  rw [rows_eq, List.map_map]
  refine List.map_congr_left fun p hp => ?_
  have hmem : p.2 ∈ n.nodes := by
    rw [← map_snd_preorder 0]
    exact List.mem_map_of_mem hp
  have htext : p.2.text = n.text.slice (p.2.start - n.start) (p.2.stop - n.start) := by
    rw [Node.text, Node.text, (h _ hmem).text_eq, (tiles_child h).1.text_eq]
    exact Text.slice_slice text hstart (start_le_of_mem_nodes h _ hmem) (h _ hmem).within.1
      (stop_le_of_mem_nodes h _ hmem)
  simp only [Prod.map, id_eq, face, htext, Function.comp_apply, Row.faceIn, row]

/-- Trees whose roots have the same text are alike if the rows of the one are those of the
other, moved by the distance of the two starts. -/
theorem same_of_rows [Platform] {n m : Node} (hn : ∀ c ∈ n.nodes, c.Tiles store text)
    (hm : ∀ c ∈ m.nodes, c.Tiles store' text') (hstart : 0 ≤ n.start) (hstart' : 0 ≤ m.start)
    (htext : n.text = m.text) (h : n.rows 0 = (m.rows 0).map (Row.shift (n.start - m.start))) :
    n.same m = true := by
  have hmoved : n.start = m.start + (n.start - m.start) := by omega
  refine same_iff_faces.2 ?_
  calc (n.preorder 0).map (Prod.map id face)
    _ = (n.rows 0).map (Row.faceIn n.start n.text) := faces_eq_map_rows hn hstart
    _ = (m.rows 0).map fun r => (r.shift (n.start - m.start)).faceIn n.start m.text := by
      rw [h, List.map_map, htext]
      rfl
    _ = (m.rows 0).map (Row.faceIn m.start m.text) := by
      refine List.map_congr_left fun r _ => ?_
      rw [← Row.faceIn_shift (n.start - m.start) m.start, ← hmoved]
    _ = (m.preorder 0).map (Prod.map id face) := (faces_eq_map_rows hm hstart').symm

theorem rows_head {n m : Node} (h : n.rows 0 = m.rows 0) : n.start = m.start ∧ n.stop = m.stop := by
  rw [rows_eq, rows_eq, preorder_eq, preorder_eq, List.map_cons, List.map_cons] at h
  have hroot := (List.cons.inj h).1
  exact ⟨congrArg Row.start hroot, congrArg Row.stop hroot⟩

theorem Row.shift_zero (r : Row) : r.shift 0 = r := by
  simp only [shift, Int.add_zero]

end Node

namespace Store

open Node

/-- The trees of two matches from offsets that are not negative are alike if and only if they
have the same text and their rows are the same once the second tree is moved to where the
first one starts.  Trees that are alike have the same hash key.  In the same text, trees with
the same rows are alike.  Likeness is an equivalence of all trees. -/
theorem same_iff_rows [Platform] [Platform.Bounded] {store store' : Store} {text text' : Text}
    {depth depth' : Nat} {e e' : ExprId} {pos pos' : Int} {n n' : Node}
    (h : store.matchAt text depth e pos = .ok (some n))
    (h' : store'.matchAt text' depth' e' pos' = .ok (some n')) (hpos : 0 ≤ pos) (hpos' : 0 ≤ pos') :
    (n.same n' = true ↔
      n.text = n'.text ∧ n.rows 0 = (n'.rows 0).map (Row.shift (n.start - n'.start))) ∧
    (n.same n' = true → n.hashKey = n'.hashKey) ∧
    (text = text' → n.rows 0 = n'.rows 0 → n.same n' = true) ∧
    Equivalence fun a b : Node => a.same b = true := by
  have hn := matchAt_tiles h
  have hn' := matchAt_tiles h'
  have hstart : 0 ≤ n.start := by rwa [(matchAt_spans _ _ _ _ _ _ h).1]
  have hstart' : 0 ≤ n'.start := by rwa [(matchAt_spans _ _ _ _ _ _ h').1]
  refine ⟨⟨fun hsame => ?_, fun hrows => same_of_rows hn hn' hstart hstart' hrows.1 hrows.2⟩,
    fun hsame => ?_, fun htext hrows => ?_, equivalence_same⟩
  · have hfaces : Alongside (fun a b => a.face = b.face) 0 n n' := same_iff_alongside.1 hsame
    exact ⟨congrArg Prod.fst hfaces.root,
      rows_of_alongside (alongside_displaced hn hn' hstart hstart' hfaces)⟩
  · obtain ⟨hface, hchildren⟩ := same_iff.1 hsame
    simp only [face, Prod.mk.injEq] at hface
    rw [hashKey, hashKey, hface.1, hface.2.1, hface.2.2, hchildren.length_eq]
  · obtain ⟨hstarts, hstops⟩ := rows_head hrows
    refine same_of_rows hn hn' hstart hstart' ?_ ?_
    · rw [Node.text, Node.text, (tiles_child hn).1.text_eq, (tiles_child hn').1.text_eq, hstarts, hstops,
        htext]
    · rw [hstarts, Int.sub_self, List.map_congr_left fun r _ => Row.shift_zero r, List.map_id', hrows]

attribute [local instance] Platform.builtIn

/-- The tree of the lane in one text, and its tree one character later in another one. -/
theorem same_iff_rows_lane : ∃ n n', lane.matchAt "abbc".toText 5 6 1 = .ok (some n) ∧
    lane.matchAt "bb".toText 5 6 0 = .ok (some n') ∧ 0 ≤ (1 : Int) ∧ 0 ≤ (0 : Int) ∧
    n.rows 0 = (n'.rows 0).map (Row.shift 1) ∧ n.hashKey = n'.hashKey ∧ (n.rows 0).length = 7 := by
  have hmatch : ∃ n n', lane.matchAt "abbc".toText 5 6 1 = .ok (some n) ∧
      lane.matchAt "bb".toText 5 6 0 = .ok (some n') ∧ n.same n' = true ∧ n.start - n'.start = 1 ∧
      (n.rows 0).length = 7 := ⟨_, _, rfl, rfl, rfl, rfl, rfl⟩
  obtain ⟨n, n', hn, hn', hsame, hdistance, hcount⟩ := hmatch
  obtain ⟨hrows, hkey, -⟩ := same_iff_rows hn hn' (by decide) (by decide)
  have hmoved := (hrows.1 hsame).2
  rw [hdistance] at hmoved
  exact ⟨n, n', hn, hn', by decide, by decide, hmoved, hkey hsame, hcount⟩

end Store

end Pegboard
