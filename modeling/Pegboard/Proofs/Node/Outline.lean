import Pegboard.Node.Outline
import Pegboard.Proofs.Match.Tiling
import Pegboard.Regex.Engine

/-!
# What an outline keeps

The outline of a tree has the named nodes of the tree, and each of them hangs below its
nearest named ancestor.  To say so without going through outlines, `lineage` lists the nodes
of a tree in preorder, each with its proper ancestors.  The rows of the outline are those of
the named nodes in this list, and the depth of a row is the number of named ancestors
(`rowsAll_outlines`).

In the tree of a match the children of a node follow one another within its span.  Taking
out a nameless node puts its children in the place where it stood, which is the span of that
node, so the spans of an outline still do (`ordered_outlines`).  They need not touch any
more.
-/

namespace Pegboard

namespace Outline

mutual

/-- The outlines in an outline, in preorder. -/
def nodes : Outline → List Outline
  | ⟨name, full, start, stop, children⟩ => ⟨name, full, start, stop, children⟩ :: nodesAll children

/-- The outlines in outlines, in preorder. -/
def nodesAll : List Outline → List Outline
  | [] => []
  | o :: rest => o.nodes ++ nodesAll rest

end

theorem nodes_eq (o : Outline) : o.nodes = o :: nodesAll o.children := by
  cases o
  rw [nodes]

theorem mem_nodesAll {x : Outline} : ∀ {os : List Outline}, x ∈ nodesAll os ↔ ∃ o ∈ os, x ∈ o.nodes
  | [] => by simp [nodesAll]
  | o :: rest => by simp [nodesAll, mem_nodesAll]

theorem self_mem_nodes (o : Outline) : o ∈ o.nodes := by
  rw [nodes_eq]
  exact List.mem_cons_self

theorem child_mem_nodes {o c : Outline} (h : c ∈ o.children) : c ∈ o.nodes := by
  rw [nodes_eq]
  exact List.mem_cons_of_mem o (mem_nodesAll.2 ⟨c, h, c.self_mem_nodes⟩)

theorem rowsAll_append (depth : Nat) : ∀ os ps : List Outline,
    rowsAll depth (os ++ ps) = rowsAll depth os ++ rowsAll depth ps
  | [], ps => by rw [rowsAll, List.nil_append, List.nil_append]
  | o :: rest, ps => by
    rw [List.cons_append, rowsAll, rowsAll, rowsAll_append depth rest ps, List.append_assoc]

end Outline

namespace Node

/-! ## Taking out the nameless nodes -/

/-- Whether a node has a name. -/
def isNamed (n : Node) : Bool := !n.name.isEmpty

/-- The outline that a named node gives. -/
def ownOutline (n : Node) : Outline := ⟨n.name, n.fullText, n.start, n.stop, outlinesAll n.children⟩

theorem outlines_eq (n : Node) :
    n.outlines = if n.isNamed then [n.ownOutline] else outlinesAll n.children := by
  obtain ⟨origin, kind, name, full, start, stop, children⟩ := n
  cases name <;> rfl

theorem outline?_eq (n : Node) : n.outline? = if n.isNamed then some n.ownOutline else none := by
  obtain ⟨origin, kind, name, full, start, stop, children⟩ := n
  cases name <;> rfl

theorem outline?_eq_some {n : Node} {o : Outline} (h : n.outline? = some o) :
    n.isNamed = true ∧ o = n.ownOutline := by
  rw [outline?_eq] at h
  split at h
  · next hnamed => exact ⟨hnamed, (Option.some.inj h).symm⟩
  · cases h

theorem outline?_eq_none_iff {n : Node} : n.outline? = none ↔ n.name = [] := by
  obtain ⟨origin, kind, name, full, start, stop, children⟩ := n
  cases name with
  | nil => exact iff_of_true rfl rfl
  | cons c name => exact iff_of_false nofun nofun

theorem exists_outline {n : Node} (h : n.name ≠ []) : ∃ o, n.outline? = some o :=
  Option.ne_none_iff_exists'.1 (mt outline?_eq_none_iff.1 h)

theorem mem_outlinesAll {o : Outline} {ns : List Node} :
    o ∈ outlinesAll ns ↔ ∃ n ∈ ns, o ∈ n.outlines := by
  induction ns with
  | nil => simp [outlinesAll]
  | cons n rest ih => simp [outlinesAll, ih]

/-- Every outline below a tree is that of one of its nodes. -/
theorem mem_nodesAll_outlines {n : Node} {x : Outline} (h : x ∈ Outline.nodesAll n.outlines) :
    ∃ m ∈ n.nodes, x = m.ownOutline := by
  induction n using induct with
  | _ n ih =>
    have hbelow : x ∈ Outline.nodesAll (outlinesAll n.children) → ∃ m ∈ n.nodes, x = m.ownOutline := by
      intro hx
      obtain ⟨o, ho, hx⟩ := Outline.mem_nodesAll.1 hx
      obtain ⟨c, hc, ho⟩ := mem_outlinesAll.1 ho
      obtain ⟨m, hm, heq⟩ := ih c hc (Outline.mem_nodesAll.2 ⟨o, ho, hx⟩)
      exact ⟨m, mem_nodes.2 (.inr ⟨c, hc, hm⟩), heq⟩
    rw [outlines_eq] at h
    split at h
    · obtain ⟨o, ho, hx⟩ := Outline.mem_nodesAll.1 h
      obtain rfl := List.mem_singleton.1 ho
      rw [Outline.nodes_eq] at hx
      rcases List.mem_cons.1 hx with rfl | hx
      · exact ⟨n, mem_nodes.2 (.inl rfl), rfl⟩
      · exact hbelow hx
    · exact hbelow h

/-! ## Preorder -/

mutual

/-- The nodes of a tree in preorder, each with its proper ancestors, the nearest one first.
Those of the root are given. -/
def lineage (above : List Node) : Node → List (List Node × Node)
  | ⟨origin, kind, name, full, start, stop, children⟩ =>
    (above, ⟨origin, kind, name, full, start, stop, children⟩) ::
      lineageAll (⟨origin, kind, name, full, start, stop, children⟩ :: above) children

/-- The nodes of trees in preorder, each with its proper ancestors. -/
def lineageAll (above : List Node) : List Node → List (List Node × Node)
  | [] => []
  | n :: rest => n.lineage above ++ lineageAll above rest

end

theorem lineage_eq (above : List Node) (n : Node) :
    n.lineage above = (above, n) :: lineageAll (n :: above) n.children := by
  cases n
  rw [lineage]

/-- The row of a node in an outline: its depth is the number of its named ancestors. -/
def namedRow (p : List Node × Node) : Outline.Row :=
  ⟨p.1.countP isNamed, p.2.name, p.2.start, p.2.stop, p.2.text⟩

/-- The rows of the named nodes in preorder. -/
def namedRows (ps : List (List Node × Node)) : List Outline.Row :=
  (ps.filter fun p => p.2.isNamed).map namedRow

theorem namedRows_append (ps qs : List (List Node × Node)) :
    namedRows (ps ++ qs) = namedRows ps ++ namedRows qs := by
  rw [namedRows, namedRows, namedRows, List.filter_append, List.map_append]

mutual

/-- The rows of the outlines of a tree are those of its named nodes. -/
theorem rowsAll_outlines (above : List Node) : ∀ n : Node,
    Outline.rowsAll (above.countP isNamed) n.outlines = namedRows (n.lineage above)
  | ⟨origin, kind, name, full, start, stop, children⟩ => by
    have hbelow := rowsAll_outlinesAll (⟨origin, kind, name, full, start, stop, children⟩ :: above) children
    rw [outlines_eq, lineage_eq, namedRows, List.filter_cons]
    split
    · next hnamed =>
      rw [List.countP_cons_of_pos hnamed] at hbelow
      rw [Outline.rowsAll, Outline.rowsAll, List.append_nil, ownOutline, Outline.rows, hbelow]
      rfl
    · next hnameless =>
      rw [List.countP_cons_of_neg hnameless] at hbelow
      exact hbelow

theorem rowsAll_outlinesAll (above : List Node) : ∀ ns : List Node,
    Outline.rowsAll (above.countP isNamed) (outlinesAll ns) = namedRows (lineageAll above ns)
  | [] => rfl
  | n :: rest => by
    rw [outlinesAll, lineageAll, Outline.rowsAll_append, namedRows_append, rowsAll_outlines above n,
      rowsAll_outlinesAll above rest]

end

end Node

/-! ## Spans -/

namespace Outline

/-- Outlines follow one another from one offset to another, with room between them. -/
def Ordered : Int → List Outline → Int → Prop
  | pos, [], stop => pos ≤ stop
  | pos, o :: rest, stop => pos ≤ o.start ∧ o.start ≤ o.stop ∧ Ordered o.stop rest stop

theorem Ordered.of_le {pos pos' stop : Int} {os : List Outline} (h : Ordered pos os stop)
    (hle : pos' ≤ pos) : Ordered pos' os stop := by
  cases os with
  | nil => exact Int.le_trans hle h
  | cons o rest => exact ⟨Int.le_trans hle h.1, h.2⟩

theorem Ordered.append {mid stop : Int} {ps : List Outline} (hps : Ordered mid ps stop) :
    ∀ {pos : Int} {os : List Outline}, Ordered pos os mid → Ordered pos (os ++ ps) stop
  | _, [], hos => hps.of_le hos
  | _, _ :: _, hos => ⟨hos.1, hos.2.1, hps.append hos.2.2⟩

/-- Outlines in order lie within the two offsets. -/
theorem Ordered.within : ∀ {pos stop : Int} {os : List Outline}, Ordered pos os stop →
    pos ≤ stop ∧ ∀ o ∈ os, pos ≤ o.start ∧ o.start ≤ o.stop ∧ o.stop ≤ stop
  | _, _, [], h => ⟨h, nofun⟩
  | _, _, o :: rest, ⟨hpos, hspan, hrest⟩ => by
    obtain ⟨hle, hall⟩ := hrest.within
    have hstop := Int.le_trans hpos hspan
    refine ⟨Int.le_trans hstop hle, List.forall_mem_cons.2 ⟨⟨hpos, hspan, hle⟩, fun p hp => ?_⟩⟩
    obtain ⟨hstart, hp⟩ := hall p hp
    exact ⟨Int.le_trans hstop hstart, hp⟩

/-- Outlines in order do not overlap. -/
theorem Ordered.pairwise : ∀ {pos stop : Int} {os : List Outline}, Ordered pos os stop →
    os.Pairwise fun o p => o.stop ≤ p.start
  | _, _, [], _ => .nil
  | _, _, _ :: _, ⟨_, _, hrest⟩ => .cons (fun p hp => (hrest.within.2 p hp).1) hrest.pairwise

end Outline

namespace Node

open Store

variable {store : Store} {text : Text}

theorem Chained.ordered_outlinesAll : ∀ {ns : List Node} {pos stop : Int}, Chained pos ns stop →
    (∀ n ∈ ns, Outline.Ordered n.start n.outlines n.stop) → Outline.Ordered pos (outlinesAll ns) stop
  | [], _, _, hchain, _ => Int.le_of_eq hchain
  | n :: rest, _, _, ⟨hstart, hchain⟩, h => by
    obtain ⟨hfirst, hrest⟩ := List.forall_mem_cons.1 h
    rw [outlinesAll, ← hstart]
    exact (hchain.ordered_outlinesAll hrest).append hfirst

/-- The outlines of the children of a node follow one another within its span, if those of
each child do. -/
theorem Tiles.ordered_outlinesAll [Platform] {n : Node} (h : n.Tiles store text)
    (hbelow : ∀ c ∈ n.children, Outline.Ordered c.start c.outlines c.stop) :
    Outline.Ordered n.start (outlinesAll n.children) n.stop := by
  rcases h.chained with ⟨-, hnil⟩ | ⟨-, hchain⟩
  · rw [hnil]
    exact h.within.1
  · exact hchain.ordered_outlinesAll hbelow

/-- The outlines of a tree that tiles follow one another within its span. -/
theorem ordered_outlines [Platform] {n : Node} (h : ∀ m ∈ n.nodes, m.Tiles store text) :
    Outline.Ordered n.start n.outlines n.stop := by
  induction n using induct with
  | _ n ih =>
    obtain ⟨hnode, hbelow⟩ := tiles_child h
    rw [outlines_eq]
    split
    · exact ⟨Int.le_refl _, hnode.within.1, Int.le_refl _⟩
    · exact hnode.ordered_outlinesAll fun c hc => ih c hc (hbelow c hc)

/-- At every outline of a tree that tiles, the children follow one another within its span. -/
theorem ordered_children [Platform] {n : Node} (h : ∀ m ∈ n.nodes, m.Tiles store text) {x : Outline}
    (hx : x ∈ Outline.nodesAll n.outlines) : Outline.Ordered x.start x.children x.stop := by
  obtain ⟨m, hm, rfl⟩ := mem_nodesAll_outlines hx
  have hnodes : ∀ c ∈ m.nodes, c.Tiles store text := fun c hc => h c (mem_nodes_trans hm hc)
  obtain ⟨hnode, hbelow⟩ := tiles_child hnodes
  exact hnode.ordered_outlinesAll fun c hc => ordered_outlines (hbelow c hc)

/-- A tree has an outline if and only if its root is named.  The rows of the outline are those
of the named nodes in preorder, each at the depth of its named ancestors.  In the outline of a
match, the children of a node lie within its span, in order and without overlap. -/
theorem outline_keeps_named [Platform] [Platform.Bounded] (n : Node) :
    (n.outline? = none ↔ n.name = []) ∧
    (∀ o, n.outline? = some o → o.rows 0 = namedRows (n.lineage [])) ∧
    ∀ store text depth e pos, Store.matchAt store text depth e pos = .ok (some n) →
      ∀ o, n.outline? = some o → ∀ x ∈ o.nodes,
        (∀ c ∈ x.children, x.start ≤ c.start ∧ c.start ≤ c.stop ∧ c.stop ≤ x.stop) ∧
        x.children.Pairwise fun a b => a.stop ≤ b.start := by
  refine ⟨outline?_eq_none_iff, fun o ho => ?_, fun store text depth e pos hmatch o ho x hx => ?_⟩
  · obtain ⟨hnamed, rfl⟩ := outline?_eq_some ho
    have hrows := rowsAll_outlines [] n
    rw [outlines_eq, if_pos hnamed, Outline.rowsAll, Outline.rowsAll, List.append_nil] at hrows
    exact hrows
  · obtain ⟨hnamed, rfl⟩ := outline?_eq_some ho
    have hmem : x ∈ Outline.nodesAll n.outlines := by
      rw [outlines_eq, if_pos hnamed]
      exact Outline.mem_nodesAll.2 ⟨_, List.mem_cons_self, hx⟩
    have hordered := ordered_children (matchAt_tiles hmatch) hmem
    exact ⟨hordered.within.2, hordered.pairwise⟩

/-- The rule `beads = (bead ",")+`. -/
def beads : Store :=
  #[⟨"bead".toText, .literal ['o']⟩, ⟨[], .literal [',']⟩, ⟨[], .compound .sequence [0, 1] true⟩,
    ⟨"beads".toText, .unary (.plus 1) 2⟩]

attribute [local instance] Platform.builtIn

/-- Two beads, which the nameless sequences hand up to the rule, and no comma. -/
theorem outline_keeps_named_beads : ∃ n o, beads.matchAt "-o,o,".toText 3 3 1 = .ok (some n) ∧
    n.outline? = some o ∧ o.rows 0 = namedRows (n.lineage []) ∧
    (∀ x ∈ o.nodes, (∀ c ∈ x.children, x.start ≤ c.start ∧ c.start ≤ c.stop ∧ c.stop ≤ x.stop) ∧
      x.children.Pairwise fun a b => a.stop ≤ b.start) ∧
    (n.lineage []).length = 7 ∧ (o.rows 0).map (fun r => (r.depth, r.start, r.stop)) =
      [(0, 1, 5), (1, 1, 2), (1, 3, 4)] := by
  have hmatch : ∃ n o, beads.matchAt "-o,o,".toText 3 3 1 = .ok (some n) ∧ n.outline? = some o ∧
      (n.lineage []).length = 7 ∧ (o.rows 0).map (fun r => (r.depth, r.start, r.stop)) =
        [(0, 1, 5), (1, 1, 2), (1, 3, 4)] := ⟨_, _, rfl, rfl, rfl, rfl⟩
  obtain ⟨n, o, hn, ho, hcount, hplaces⟩ := hmatch
  obtain ⟨-, hrows, hspans⟩ := outline_keeps_named n
  exact ⟨n, o, hn, ho, hrows o ho, hspans _ _ _ _ _ hn o ho, hcount, hplaces⟩

end Node

end Pegboard
