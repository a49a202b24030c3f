import Pegboard.Proofs.Match.Derivation
import Pegboard.Regex.Engine

/-!
# Parse trees tile their span

A node covers a span of the text, and its children divide that span between them.  How
they do so depends on the form of the expression: the members of a sequence follow one
another from the start to the end, a choice has one child that takes all, a repetition
has a chain of children none of which is empty, and so on.  `Node.Tiles` says it for one
node.

A level of a match puts together nodes that its members gave, and `matchForm_tiles` says
that they divide the span of the new node.  By induction on the depth every node of a tree does
(`matchAt_tiles`).  From this alone follows that the text of a node is that of the
literals and patterns below it, one after the other (`text_eq_leaves`).
-/

namespace Pegboard

namespace Node

mutual

/-- The nodes of a tree in preorder. -/
def nodes : Node → List Node
  | ⟨origin, kind, name, full, start, stop, children⟩ =>
    ⟨origin, kind, name, full, start, stop, children⟩ :: nodesAll children

/-- The nodes of trees in preorder. -/
def nodesAll : List Node → List Node
  | [] => []
  | n :: rest => n.nodes ++ nodesAll rest

end

theorem nodes_eq (n : Node) : n.nodes = n :: nodesAll n.children := by
  cases n
  simp [nodes]

theorem mem_nodesAll {m : Node} : ∀ {ns : List Node}, m ∈ nodesAll ns ↔ ∃ n ∈ ns, m ∈ n.nodes
  | [] => by simp [nodesAll]
  | n :: rest => by simp [nodesAll, mem_nodesAll]

mutual

/-- What holds of a node if it holds of its children holds of all nodes. -/
theorem induct {P : Node → Prop} (h : ∀ n : Node, (∀ c ∈ n.children, P c) → P n) : ∀ n, P n
  | ⟨_, _, _, _, _, _, children⟩ => h _ (inductAll h children)

theorem inductAll {P : Node → Prop} (h : ∀ n : Node, (∀ c ∈ n.children, P c) → P n) :
    ∀ ns : List Node, ∀ c ∈ ns, P c
  | [] => nofun
  | n :: rest => List.forall_mem_cons.2 ⟨induct h n, inductAll h rest⟩

end

theorem mem_nodes {m n : Node} : m ∈ n.nodes ↔ m = n ∨ ∃ c ∈ n.children, m ∈ c.nodes := by
  rw [nodes_eq, List.mem_cons, mem_nodesAll]

/-- A node below a node of a tree is a node of the tree. -/
theorem mem_nodes_trans {m m' n : Node} (hm : m ∈ n.nodes) (hm' : m' ∈ m.nodes) : m' ∈ n.nodes := by
  induction n using induct with
  | _ n ih =>
    rcases mem_nodes.1 hm with rfl | ⟨c, hc, hm⟩
    · exact hm'
    · exact mem_nodes.2 (.inr ⟨c, hc, ih c hc hm⟩)

/-- Whether a node is the match of a literal or of a pattern. -/
def isLeaf (n : Node) : Bool := n.kind == .literal || n.kind == .regex

/-- The literals and patterns of a tree, in order. -/
def leaves (n : Node) : List Node := n.nodes.filter isLeaf

/-- Nodes follow one another from one offset to another. -/
def Chained : Int → List Node → Int → Prop
  | pos, [], stop => pos = stop
  | pos, n :: rest, stop => n.start = pos ∧ Chained n.stop rest stop

end Node

namespace Store

/-- The expression does not match at the offset. -/
def Fails [Platform] (store : Store) (text : Text) (e : ExprId) (pos : Int) : Prop :=
  ∃ depth, store.matchAt text depth e pos = .ok none

end Store

namespace Node

open Store

/-- A node has one child, which takes up the whole of it. -/
def Wraps (n child : Node) : Prop :=
  n.children = [child] ∧ child.start = n.start ∧ child.stop = n.stop

/-- How the children of a node divide its span, by the form of its expression. -/
def TilesAs [Platform] (store : Store) (text : Text) (n : Node) : Form → Prop
  | .literal _ | .regex _ => n.children = []
  | .compound .sequence members _ =>
    n.children.map origin = members ∧ Chained n.start n.children n.stop
  | .compound .choice members _ => ∃ child, n.Wraps child ∧ child.origin ∈ members
  | .unary .lookahead _ | .unary .negation _ => n.children = [] ∧ n.stop = n.start
  | .unary .optional member =>
    ((∃ child, n.Wraps child ∧ child.origin = member) ∨ n.children = [] ∧ n.stop = n.start) ∧
      (n.children = [] ↔ store.Fails text member n.start)
  | .unary .star member | .unary (.plus _) member =>
    (∀ child ∈ n.children, child.origin = member ∧ child.start < child.stop) ∧
      Chained n.start n.children n.stop
  | .reference _ _ | .unknown => False

/-- A node belongs to its expression, lies within the text, and its children divide its
span. -/
structure Tiles [Platform] (store : Store) (text : Text) (n : Node) : Prop where
  /-- It ends where a match from its start may. -/
  within : EndsFrom text n.start n.stop
  /-- It is of the text. -/
  text_eq : n.fullText = text
  /-- It has the kind and the name of its expression, and tiles as that does. -/
  tiled : ∃ cell, store[n.origin]? = some cell ∧ n.kind = cell.kind ∧ n.name = cell.name ∧
    n.TilesAs store text cell.form

end Node

namespace Store

open Node

/-! ## One level -/

section Level

variable {store : Store} {text : Text} {step : ExprId → Int → Outcome} (hspans : Spans text step)
  (horigin : ∀ e pos n, step e pos = .ok (some n) → n.origin = e)
include hspans horigin

/-- Members that match one after the other give a chain, one node for each. -/
theorem matchAll_given : ∀ {members : List ExprId} {pos : Int} {nodes : List Node} {stop : Int},
    matchAll step members pos = .ok (some (nodes, stop)) →
    nodes.map origin = members ∧ Chained pos nodes stop ∧
      ∀ n ∈ nodes, step n.origin n.start = .ok (some n)
  | [], _, _, _, h => by
    cases h
    exact ⟨rfl, rfl, nofun⟩
  | e :: rest, pos, nodes, stop, h => by
    simp only [matchAll] at h
    rcases he : step e pos with err | _ | n <;> rw [he] at h
    · cases h
    · cases h
    · rcases hr : matchAll step rest n.stop with err | _ | ⟨more, last⟩ <;> simp only [hr] at h
      · cases h
      · cases h
      · cases h
        have hstart := (hspans e pos n he).1
        have hmember := horigin e pos n he
        obtain ⟨hmembers, hchain, hgiven⟩ := matchAll_given hr
        refine ⟨by rw [List.map_cons, hmembers, hmember], ⟨hstart, hchain⟩, ?_⟩
        exact List.forall_mem_cons.2 ⟨by rw [hstart, hmember]; exact he, hgiven⟩

/-- What a choice gives is what one of its members gives. -/
theorem matchFirst_given : ∀ {members : List ExprId} {pos : Int} {n : Node},
    matchFirst step members pos = .ok (some n) →
    n.origin ∈ members ∧ n.start = pos ∧ step n.origin n.start = .ok (some n)
  | [], _, _, h => by cases h
  | e :: rest, pos, n, h => by
    simp only [matchFirst] at h
    rcases he : step e pos with err | _ | first <;> rw [he] at h
    · cases h
    · obtain ⟨hmem, hgiven⟩ := matchFirst_given h
      exact ⟨List.mem_cons_of_mem e hmem, hgiven⟩
    · cases h
      have hstart := (hspans e pos n he).1
      rw [hstart, horigin e pos n he]
      exact ⟨List.mem_cons_self, rfl, he⟩

/-- The matches of a repetition give a chain, and none of them is empty. -/
theorem matchRepeat_given {e : ExprId} : ∀ {rounds : Nat} {pos : Int} {nodes : List Node},
    matchRepeat (step e) rounds pos = .ok nodes →
    (∀ n ∈ nodes, n.origin = e ∧ n.start < n.stop) ∧ Chained pos nodes (chainStop pos nodes) ∧
      ∀ n ∈ nodes, step n.origin n.start = .ok (some n)
  | 0, _, _, h => by
    cases h
    exact ⟨nofun, rfl, nofun⟩
  | rounds + 1, pos, nodes, h => by
    simp only [matchRepeat] at h
    rcases he : step e pos with err | _ | n <;> rw [he] at h
    · cases h
    · cases h
      exact ⟨nofun, rfl, nofun⟩
    · dsimp only at h
      split at h
      · cases h
        exact ⟨nofun, rfl, nofun⟩
      · next hmoved =>
        rcases hr : matchRepeat (step e) rounds n.stop with err | more <;> simp only [hr] at h
        · cases h
        · cases h
          obtain ⟨hstart, hle, -⟩ := hspans e pos n he
          have hmember := horigin e pos n he
          obtain ⟨hmore, hchain, hgiven⟩ := matchRepeat_given hr
          rw [chainStop_cons]
          refine ⟨List.forall_mem_cons.2 ⟨⟨hmember, by omega⟩, hmore⟩, ⟨hstart, hchain⟩, ?_⟩
          exact List.forall_mem_cons.2 ⟨by rw [hstart, hmember]; exact he, hgiven⟩

/-- The children of a level are nodes that were given below it, and they divide the span of
its node.  `hfails` says what it means for a member of the level not to match. -/
theorem matchForm_tiles [Platform]
    (hfails : ∀ e pos, (step e pos = .ok none → store.Fails text e pos) ∧
      ∀ n, step e pos = .ok (some n) → ¬ store.Fails text e pos)
    {e : ExprId} {cell : Cell} {pos : Int} {o : Int × List Node}
    (h : matchForm text step pos cell.form = .ok (some o)) :
    (nodeOf text e cell pos o).TilesAs store text cell.form ∧
      ∀ n ∈ o.2, step n.origin n.start = .ok (some n) := by
  generalize cell.form = form at h ⊢
  unfold matchForm at h
  split at h
  · split at h <;> cases h
    exact ⟨rfl, List.forall_mem_nil _⟩
  · obtain ⟨length, -, rfl⟩ := Option.map_eq_some_iff.1 (Except.ok.inj h)
    exact ⟨rfl, List.forall_mem_nil _⟩
  · obtain ⟨r, hr, ho⟩ := map_eq_ok h
    obtain ⟨⟨nodes, stop⟩, rfl, rfl⟩ := Option.map_eq_some_iff.1 ho
    obtain ⟨hmembers, hchain, hgiven⟩ := matchAll_given hspans horigin hr
    exact ⟨⟨hmembers, hchain⟩, hgiven⟩
  · obtain ⟨r, hr, ho⟩ := map_eq_ok h
    obtain ⟨child, rfl, rfl⟩ := Option.map_eq_some_iff.1 ho
    obtain ⟨hmember, hstart, hgiven⟩ := matchFirst_given hspans horigin hr
    exact ⟨⟨child, ⟨rfl, hstart, rfl⟩, hmember⟩, List.forall_mem_singleton.2 hgiven⟩
  · obtain ⟨r, -, ho⟩ := map_eq_ok h
    obtain ⟨child, rfl, rfl⟩ := Option.map_eq_some_iff.1 ho
    exact ⟨⟨rfl, rfl⟩, List.forall_mem_nil _⟩
  · obtain ⟨_ | child, -, ho⟩ := map_eq_ok h <;> cases ho
    exact ⟨⟨rfl, rfl⟩, List.forall_mem_nil _⟩
  · next member =>
    obtain ⟨_ | child, hr, ho⟩ := map_eq_ok h <;> cases ho
    · exact ⟨⟨.inr ⟨rfl, rfl⟩, ⟨fun _ => (hfails member pos).1 hr, fun _ => rfl⟩⟩,
        List.forall_mem_nil _⟩
    · have hstart := (hspans member pos child hr).1
      have hmember := horigin member pos child hr
      refine ⟨⟨.inl ⟨child, ⟨rfl, hstart, rfl⟩, hmember⟩, ?_⟩, List.forall_mem_singleton.2 ?_⟩
      · exact ⟨fun hnil => absurd hnil (List.cons_ne_nil _ _),
          fun hnone => absurd hnone ((hfails member pos).2 child hr)⟩
      · rw [hstart, hmember]
        exact hr
  · obtain ⟨nodes, hr, ho⟩ := map_eq_ok h
    cases ho
    obtain ⟨hmoves, hchain, hgiven⟩ := matchRepeat_given hspans horigin hr
    exact ⟨⟨hmoves, hchain⟩, hgiven⟩
  · obtain ⟨nodes, hr, ho⟩ := map_eq_ok h
    split at ho <;> cases ho
    obtain ⟨hmoves, hchain, hgiven⟩ := matchRepeat_given hspans horigin hr
    exact ⟨⟨hmoves, hchain⟩, hgiven⟩
  · cases h
  · cases h

end Level

/-! ## All levels -/

theorem not_fails_of_matchAt [Platform] [Platform.Bounded] {store : Store} {text : Text}
    {depth : Nat} {e : ExprId} {pos : Int} {n : Node}
    (h : store.matchAt text depth e pos = .ok (some n)) : ¬ store.Fails text e pos := by
  rintro ⟨depth', h'⟩
  cases (derives_of_matchAt h).functional (derives_of_matchAt h')

/-- A node is one of the expression that was matched. -/
theorem matchAt_origin [Platform] {store : Store} {text : Text} {depth : Nat} {e : ExprId}
    {pos : Int} {n : Node} (h : store.matchAt text depth e pos = .ok (some n)) : n.origin = e := by
  cases depth with
  | zero => cases h
  | succ depth =>
    rcases hc : store[e]? with _ | cell
    · rw [matchAt_none hc] at h
      cases h
    · rw [matchAt_succ hc] at h
      obtain ⟨o, -, hnode⟩ := map_eq_ok h
      obtain ⟨o, rfl, rfl⟩ := Option.map_eq_some_iff.1 hnode
      rfl

/-- Every node of a tree that is matched tiles its span. -/
theorem matchAt_tiles [Platform] [Platform.Bounded] {store : Store} {text : Text} : ∀ {depth : Nat}
    {e : ExprId} {pos : Int} {n : Node},
    store.matchAt text depth e pos = .ok (some n) → ∀ m ∈ n.nodes, m.Tiles store text
  | 0, _, _, _, h => by cases h
  | depth + 1, e, pos, n, h => by
    rcases hc : store[e]? with _ | cell
    · rw [matchAt_none hc] at h
      cases h
    have hspan := matchAt_spans store text (depth + 1) e pos n h
    rw [matchAt_succ hc] at h
    obtain ⟨o, ho, hnode⟩ := map_eq_ok h
    obtain ⟨o, rfl, rfl⟩ := Option.map_eq_some_iff.1 hnode
    obtain ⟨htiles, hgiven⟩ := matchForm_tiles (e := e) (matchAt_spans store text depth)
      (fun _ _ _ => matchAt_origin)
      (fun e pos => ⟨fun hnone => ⟨depth, hnone⟩, fun _ => not_fails_of_matchAt⟩) ho
    rw [nodes_eq]
    refine List.forall_mem_cons.2 ⟨⟨hspan.2, rfl, cell, hc, rfl, rfl, htiles⟩, fun m hm => ?_⟩
    obtain ⟨child, hchild, hm⟩ := mem_nodesAll.1 hm
    exact matchAt_tiles (hgiven child hchild) m hm

end Store

/-! ## Texts -/

theorem Text.slice_append {text : Text} {a b c : Int} (ha : 0 ≤ a) (hab : a ≤ b) (hbc : b ≤ c) :
    text.slice a b ++ text.slice b c = text.slice a c := by
  obtain ⟨a, rfl⟩ := Int.eq_ofNat_of_zero_le ha
  obtain ⟨b, rfl⟩ := Int.eq_ofNat_of_zero_le (Int.le_trans ha hab)
  obtain ⟨c, rfl⟩ := Int.eq_ofNat_of_zero_le (Int.le_trans ha (Int.le_trans hab hbc))
  have hab' : a ≤ b := Int.ofNat_le.1 hab
  have hbc' : b ≤ c := Int.ofNat_le.1 hbc
  simp only [slice_natCast]
  have hsplit : text.take b ++ (text.take c).drop b = text.take c := by
    have h := List.take_append_drop b (text.take c)
    rwa [List.take_take, Nat.min_eq_left hbc'] at h
  have hdrop : (text.take c).drop a = (text.take b).drop a ++
      ((text.take c).drop b).drop (a - (text.take b).length) := by
    rw [← List.drop_append, hsplit]
  rw [hdrop]
  -- Past the end of the text there is nothing to drop.
  by_cases hlength : a ≤ (text.take b).length
  · rw [Nat.sub_eq_zero_of_le hlength, List.drop_zero]
  · have hnil : (text.take c).drop b = [] := by
      rw [List.length_take] at hlength
      refine List.drop_eq_nil_of_le ?_
      rw [List.length_take]
      omega
    rw [hnil, List.drop_nil]

theorem Text.slice_self (text : Text) (pos : Int) : text.slice pos pos = [] := by
  rw [slice]
  exact List.drop_eq_nil_of_le (List.length_take_le _ _)

namespace Node

variable {store : Store} {text : Text}

theorem leaves_of_isLeaf {n : Node} (hkind : n.isLeaf = true) (hchildren : n.children = []) :
    n.leaves = [n] := by
  rw [leaves, nodes_eq, hchildren, nodesAll, List.filter_cons_of_pos hkind, List.filter_nil]

theorem leaves_of_not_isLeaf {n : Node} (hkind : n.isLeaf = false) :
    n.leaves = n.children.flatMap leaves := by
  have hall : ∀ ns : List Node, (nodesAll ns).filter isLeaf = ns.flatMap leaves := by
    intro ns
    induction ns with
    | nil => rfl
    | cons n rest ih => rw [nodesAll, List.filter_append, ih, List.flatMap_cons, leaves]
  rw [leaves, nodes_eq, List.filter_cons_of_neg (by rw [hkind]; exact Bool.false_ne_true), hall]

/-- The texts of nodes that are chained make up the text between the two ends. -/
theorem Chained.flatMap_text : ∀ {ns : List Node} {pos stop : Int}, 0 ≤ pos → Chained pos ns stop →
    (∀ n ∈ ns, n.fullText = text ∧ n.start ≤ n.stop) →
    pos ≤ stop ∧ ns.flatMap Node.text = text.slice pos stop := by
  intro ns
  induction ns with
  | nil =>
    rintro pos stop _ rfl _
    exact ⟨Int.le_refl _, (text.slice_self pos).symm⟩
  | cons n rest ih =>
    rintro pos stop hpos ⟨rfl, hrest⟩ hall
    obtain ⟨hfull, hle⟩ := hall n List.mem_cons_self
    obtain ⟨hle', htext⟩ := ih (Int.le_trans hpos hle) hrest fun m hm => hall m (List.mem_cons_of_mem n hm)
    refine ⟨Int.le_trans hle hle', ?_⟩
    rw [List.flatMap_cons, htext, Node.text, hfull, Text.slice_append hpos hle hle']

/-- The children of a node that is no leaf are chained from its start to its end. -/
theorem Tiles.chained [Platform] {n : Node} (h : n.Tiles store text) :
    n.isLeaf = true ∧ n.children = [] ∨ n.isLeaf = false ∧ Chained n.start n.children n.stop := by
  obtain ⟨cell, -, hkind, -, htiles⟩ := h.tiled
  rw [isLeaf, hkind, Cell.kind]
  rcases hform : cell.form with piece | pattern | ⟨order, members, frozen⟩ | ⟨wrap, member⟩ |
    ⟨target, place⟩ | _ <;> rw [hform] at htiles
  · exact .inl ⟨rfl, htiles⟩
  · exact .inl ⟨rfl, htiles⟩
  · cases order with
    | sequence => exact .inr ⟨rfl, htiles.2⟩
    | choice =>
      obtain ⟨child, ⟨hchildren, hstart, hstop⟩, -⟩ := htiles
      exact .inr ⟨rfl, by rw [hchildren]; exact ⟨hstart, hstop⟩⟩
  · have hnone : n.children = [] → n.stop = n.start → Chained n.start n.children n.stop := by
      intro hchildren hstop
      rw [hchildren]
      exact hstop.symm
    cases wrap with
    | lookahead | negation => exact .inr ⟨rfl, hnone htiles.1 htiles.2⟩
    | optional =>
      obtain ⟨⟨child, ⟨hchildren, hstart, hstop⟩, -⟩ | ⟨hchildren, hstop⟩, -⟩ := htiles
      · exact .inr ⟨rfl, by rw [hchildren]; exact ⟨hstart, hstop⟩⟩
      · exact .inr ⟨rfl, hnone hchildren hstop⟩
    | star | plus least => exact .inr ⟨rfl, htiles.2⟩
  · exact htiles.elim
  · exact htiles.elim

/-- Nodes that are chained start no earlier than the first one. -/
theorem Chained.le_start : ∀ {ns : List Node} {pos stop : Int}, Chained pos ns stop →
    (∀ n ∈ ns, n.start ≤ n.stop) → ∀ n ∈ ns, pos ≤ n.start := by
  intro ns
  induction ns with
  | nil => exact fun _ _ => nofun
  | cons n rest ih =>
    rintro pos stop ⟨rfl, hrest⟩ hall m hm
    rcases List.mem_cons.1 hm with rfl | hm
    · exact Int.le_refl _
    · have hle := ih hrest (fun m hm => hall m (List.mem_cons_of_mem n hm)) m hm
      exact Int.le_trans (hall n List.mem_cons_self) hle

/-- The nodes of a chain end no later than it does. -/
theorem Chained.stop_le : ∀ {ns : List Node} {pos stop : Int}, Chained pos ns stop →
    (∀ n ∈ ns, n.start ≤ n.stop) → pos ≤ stop ∧ ∀ n ∈ ns, n.stop ≤ stop := by
  intro ns
  induction ns with
  | nil =>
    rintro pos stop rfl _
    exact ⟨Int.le_refl _, nofun⟩
  | cons n rest ih =>
    rintro pos stop ⟨rfl, hrest⟩ hall
    obtain ⟨hn, hmore⟩ := List.forall_mem_cons.1 hall
    obtain ⟨hle, hstops⟩ := ih hrest hmore
    exact ⟨Int.le_trans hn hle, List.forall_mem_cons.2 ⟨hle, hstops⟩⟩

/-- The children of a node start no earlier than the node. -/
theorem Tiles.start_le_child [Platform] {n : Node} (h : n.Tiles store text)
    (hchildren : ∀ c ∈ n.children, c.Tiles store text) : ∀ c ∈ n.children, n.start ≤ c.start := by
  rcases h.chained with ⟨-, hnil⟩ | ⟨-, hchain⟩
  · rw [hnil]
    exact nofun
  · exact hchain.le_start fun c hc => (hchildren c hc).within.1

/-- The children of a node end no later than the node. -/
theorem Tiles.child_stop_le [Platform] {n : Node} (h : n.Tiles store text)
    (hchildren : ∀ c ∈ n.children, c.Tiles store text) : ∀ c ∈ n.children, c.stop ≤ n.stop := by
  rcases h.chained with ⟨-, hnil⟩ | ⟨-, hchain⟩
  · rw [hnil]
    exact nofun
  · exact (hchain.stop_le fun c hc => (hchildren c hc).within.1).2

/-- The nodes of the children of a tree are nodes of the tree. -/
theorem tiles_child [Platform] {n : Node} (h : ∀ m ∈ n.nodes, m.Tiles store text) :
    n.Tiles store text ∧ ∀ c ∈ n.children, ∀ m ∈ c.nodes, m.Tiles store text :=
  ⟨h n (mem_nodes.2 (.inl rfl)), fun c hc m hm => h m (mem_nodes.2 (.inr ⟨c, hc, hm⟩))⟩

/-- No node of a tree starts before the tree does. -/
theorem start_le_of_mem_nodes [Platform] {n : Node} (h : ∀ m ∈ n.nodes, m.Tiles store text) :
    ∀ m ∈ n.nodes, n.start ≤ m.start := by
  induction n using induct with
  | _ n ih =>
    obtain ⟨hnode, hbelow⟩ := tiles_child h
    intro m hm
    rcases mem_nodes.1 hm with rfl | ⟨c, hc, hm⟩
    · exact Int.le_refl _
    · have hle := hnode.start_le_child (fun c hc => (tiles_child (hbelow c hc)).1) c hc
      exact Int.le_trans hle (ih c hc (hbelow c hc) m hm)

/-- No node of a tree ends after the tree does. -/
theorem stop_le_of_mem_nodes [Platform] {n : Node} (h : ∀ m ∈ n.nodes, m.Tiles store text) :
    ∀ m ∈ n.nodes, m.stop ≤ n.stop := by
  induction n using induct with
  | _ n ih =>
    obtain ⟨hnode, hbelow⟩ := tiles_child h
    intro m hm
    rcases mem_nodes.1 hm with rfl | ⟨c, hc, hm⟩
    · exact Int.le_refl _
    · have hle := hnode.child_stop_le (fun c hc => (tiles_child (hbelow c hc)).1) c hc
      exact Int.le_trans (ih c hc (hbelow c hc) m hm) hle

/-- The text of a node is made up of the literals and patterns below it. -/
theorem text_eq_leaves [Platform] {n : Node} (h : ∀ m ∈ n.nodes, m.Tiles store text)
    (hstart : 0 ≤ n.start) :
    n.text = n.leaves.flatMap Node.text := by
  induction n using induct with
  | _ n ih =>
    obtain ⟨hnode, hbelow⟩ := tiles_child h
    have htiles : ∀ c ∈ n.children, c.Tiles store text := fun c hc => (tiles_child (hbelow c hc)).1
    rcases hnode.chained with ⟨hleaf, hnil⟩ | ⟨hleaf, hchain⟩
    · rw [leaves_of_isLeaf hleaf hnil, List.flatMap_singleton]
    · have htexts : n.children.map Node.text =
          n.children.map fun c => c.leaves.flatMap Node.text := by
        refine List.map_congr_left fun c hc => ih c hc (hbelow c hc) ?_
        exact Int.le_trans hstart (hnode.start_le_child htiles c hc)
      have hspan := hchain.flatMap_text hstart fun c hc => ⟨(htiles c hc).text_eq, (htiles c hc).within.1⟩
      calc n.text = text.slice n.start n.stop := by rw [Node.text, hnode.text_eq]
        _ = (n.children.map Node.text).flatten := by rw [← hspan.2, List.flatMap_def]
        _ = n.leaves.flatMap Node.text := by
          rw [htexts, leaves_of_not_isLeaf hleaf, List.flatMap_assoc, List.flatMap_def]

end Node

namespace Store

open Node

/-- A match gives a tree that starts at the offset and ends there or further on, but past
the end of the text only if it started there.  Every node of the tree tiles its span.  From
an offset that is not negative, the text of every node is that of the literals and patterns
below it, in order. -/
theorem matchAt_tree [Platform] [Platform.Bounded] {store : Store} {text : Text} {depth : Nat}
    {e : ExprId} {pos : Int} {n : Node} (h : store.matchAt text depth e pos = .ok (some n)) :
    (n.origin = e ∧ n.start = pos ∧ pos ≤ n.stop ∧ n.stop ≤ max pos text.length) ∧
    (∀ m ∈ n.nodes, m.Tiles store text) ∧
    (0 ≤ pos → ∀ m ∈ n.nodes, m.text = m.leaves.flatMap Node.text) := by
  obtain ⟨hstart, hle, hmax⟩ := matchAt_spans store text depth e pos n h
  have htiles := matchAt_tiles h
  refine ⟨⟨matchAt_origin h, hstart, hle, hmax⟩, htiles, fun hpos m hm => ?_⟩
  refine text_eq_leaves (fun m' hm' => htiles m' (mem_nodes_trans hm hm')) ?_
  exact Int.le_trans (by rw [hstart]; exact hpos) (start_le_of_mem_nodes htiles m hm)

/-- The rule `s = "a"? "b"* !"a"` and, over it, a choice of one. -/
def lane : Store :=
  #[⟨[], .literal ['a']⟩, ⟨[], .unary .optional 0⟩, ⟨[], .literal ['b']⟩, ⟨[], .unary .star 2⟩,
    ⟨[], .unary .negation 0⟩, ⟨['s'], .compound .sequence [1, 3, 4] true⟩,
    ⟨[], .compound .choice [0, 5] true⟩]

attribute [local instance] Platform.builtIn

/-- A tree with an optional that matches nothing, two rounds of a repetition and a negation. -/
theorem matchAt_tree_lane : ∃ n, lane.matchAt "abbc".toText 5 6 1 = .ok (some n) ∧
    (n.origin = 6 ∧ n.start = 1 ∧ 1 ≤ n.stop ∧ n.stop ≤ max 1 ("abbc".toText.length : Int)) ∧
    (∀ m ∈ n.nodes, m.Tiles lane "abbc".toText) ∧
    (0 ≤ (1 : Int) → ∀ m ∈ n.nodes, m.text = m.leaves.flatMap Node.text) ∧
    n.nodes.length = 7 ∧ n.text = "bb".toText := by
  have hmatch : ∃ n, lane.matchAt "abbc".toText 5 6 1 = .ok (some n) ∧
      n.nodes.length = 7 ∧ n.text = "bb".toText := ⟨_, rfl, rfl, rfl⟩
  obtain ⟨n, hn, hcount, htext⟩ := hmatch
  obtain ⟨hroot, htiles, htexts⟩ := matchAt_tree hn
  exact ⟨n, hn, hroot, htiles, htexts, hcount, htext⟩

end Store

end Pegboard
