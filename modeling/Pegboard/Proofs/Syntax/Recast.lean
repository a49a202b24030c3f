import Pegboard.Proofs.Syntax.Tree

/-!
# Trees over another numbering or in another text

The tree of a spelling depends on the text that it is of and on the numbering of the parts only
in that these two stand in its nodes.  A map of trees that puts others there, and goes on to
the children, takes the tree of a spelling to the tree that the spelling has with those
(`Recasts.rules`).
-/

namespace Pegboard.Syntax

/-- A map of trees puts another text and another numbering into nodes, and goes on to their
children. -/
structure Recasts (f : Node → Node) (whole whole' : Text) (ids ids' : Part → ExprId) : Prop where
  nodeAt : ∀ (p : Part) (n length : Nat) (children : List Node),
    f (nodeAt whole ids p n length children) = nodeAt whole' ids' p n length (children.map f)
  moreTerms : ∀ (start stop : Int) (children : List Node),
    f ⟨ids .moreTerms, .plus, [], whole, start, stop, children⟩ =
      ⟨ids' .moreTerms, .plus, [], whole', start, stop, children.map f⟩
  stop : ∀ n : Node, (f n).stop = n.stop

/-- A map of trees on the trees of a spelling. -/
def Shape.map (f : Node → Node) : {r : Rank} → Shape r → Shape r
  | .terms, nodes | .branches, nodes => List.map f nodes
  | .atom, node | .term, node | .expression, node => f node

namespace Recasts

variable {f : Node → Node} {whole whole' : Text} {ids ids' : Part → ExprId}

theorem nodesFrom {α : Type} {node node' : α → Nat → Node} {text : α → Text}
    (h : ∀ a n, f (node a n) = node' a n) : ∀ (as : List α) (n : Nat),
      (nodesFrom node text n as).map f = Syntax.nodesFrom node' text n as
  | [], _ => rfl
  | a :: as, n => by rw [Syntax.nodesFrom, Syntax.nodesFrom, List.map_cons, h, nodesFrom h as]

variable (hf : Recasts f whole whole' ids ids')
include hf

theorem layoutNode (layout : Layout) (n : Nat) :
    f (layoutNode whole ids layout n) = Syntax.layoutNode whole' ids' layout n := by
  rw [Syntax.layoutNode, hf.nodeAt, nodesFrom, Syntax.layoutNode]
  intro b m
  cases b <;> simp only [blankNode, hf.nodeAt, List.map_cons, List.map_nil]

theorem tokenNode (p token : Part) (text : Text) (after : Layout) (n : Nat) :
    f (tokenNode whole ids p token text after n) = Syntax.tokenNode whole' ids' p token text after n := by
  simp only [Syntax.tokenNode, hf.nodeAt, hf.layoutNode, List.map_cons, List.map_nil]

theorem termsNode (n length : Nat) (terms : List Node) :
    f (termsNode whole ids n length terms) = Syntax.termsNode whole' ids' n length (terms.map f) := by
  match terms with
  | [] => simp [Syntax.termsNode, hf.nodeAt, hf.moreTerms]
  | [term] => rfl
  | term :: term' :: rest => simp [Syntax.termsNode, hf.nodeAt, hf.moreTerms, hf.stop]

theorem branchNode (before : Layout) (length n : Nat) (terms : List Node) :
    f (branchNode whole ids before length n terms) =
      Syntax.branchNode whole' ids' before length n (terms.map f) := by
  simp only [Syntax.branchNode, alternativeNode, hf.nodeAt, hf.layoutNode, hf.termsNode, List.map_cons,
    List.map_nil]

/-- The tree of a spelling is taken to its tree with the other text and numbering. -/
theorem spelling {r : Rank} (c : Spelling r) : ∀ n : Nat,
    Shape.map f (c.node whole ids n) = c.node whole' ids' n := by
  induction c with
  | reference label after | literal quoted after =>
    intro n
    simp [Spelling.node, Shape.map, hf.nodeAt, hf.tokenNode]
  | regex quoted flags after =>
    intro n
    simp [Spelling.node, Shape.map, hf.nodeAt, hf.layoutNode]
  | group before inner after ih =>
    intro n
    simp only [Shape.map] at ih
    simp [Spelling.node, Shape.map, hf.nodeAt, hf.layoutNode, ih]
  | negation member ih | lookahead member ih =>
    intro n
    simp only [Shape.map] at ih
    simp [Spelling.node, Shape.map, hf.nodeAt, hf.layoutNode, ih]
  | quantified member quantifier after ih =>
    intro n
    simp only [Shape.map] at ih
    simp [Spelling.node, Shape.map, hf.nodeAt, hf.tokenNode, ih]
  | plain atom ih =>
    intro n
    simp only [Shape.map] at ih
    simp [Spelling.node, Shape.map, hf.nodeAt, ih]
  | last term ih =>
    intro n
    simp only [Shape.map] at ih
    simp [Spelling.node, Shape.map, ih]
  | more term rest ih ih' =>
    intro n
    simp only [Shape.map] at ih ih'
    simp [Spelling.node, Shape.map, ih, ih']
  | lastBranch before terms ih =>
    intro n
    simp only [Shape.map] at ih
    simp [Spelling.node, Shape.map, hf.branchNode, ih]
  | moreBranches before terms rest ih ih' =>
    intro n
    simp only [Shape.map] at ih ih'
    simp [Spelling.node, Shape.map, hf.branchNode, ih, ih']
  | single terms ih =>
    intro n
    simp only [Shape.map] at ih
    simp [Spelling.node, Shape.map, hf.nodeAt, hf.termsNode, ih]
  | choice first rest ih ih' =>
    intro n
    simp only [Shape.map] at ih ih'
    simp [Spelling.node, Shape.map, hf.nodeAt, alternativeNode, hf.termsNode, ih, ih']

/-- The tree of a definition text is taken to its tree with the other text and numbering. -/
theorem rules (r : RulesSpelling) : f (r.node whole ids) = r.node whole' ids' := by
  have hrule : ∀ (r : RuleSpelling) n, f (r.node whole ids n) = r.node whole' ids' n := by
    intro r n
    have hbody := hf.spelling r.body
    simp only [Shape.map] at hbody
    simp [RuleSpelling.node, hf.nodeAt, hf.tokenNode, hbody]
  simp [RulesSpelling.node, hf.nodeAt, hf.layoutNode, nodesFrom hrule]

end Recasts

end Pegboard.Syntax
