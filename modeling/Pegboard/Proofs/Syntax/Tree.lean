import Pegboard.Proofs.Syntax.Part
import Pegboard.Proofs.Syntax.Spelling

/-!
# The trees of spellings

Every spelling at an offset of a text has one tree, which is the tree that the grammar of
definitions gives for it.  Terms and branches have a list of trees, one for each; all other
spellings have one tree.
-/

namespace Pegboard.Syntax

/-- What is left of a text after a part of what is left. -/
theorem drop_append {whole text rest : Text} {n : Nat} (h : whole.drop n = text ++ rest) :
    whole.drop (n + text.length) = rest := by
  rw [← List.drop_drop, h, List.drop_left]

section

variable (whole : Text) (ids : Part → ExprId)

/-- The trees of things one after the other. -/
def nodesFrom {α : Type} (node : α → Nat → Node) (text : α → Text) : Nat → List α → List Node
  | _, [] => []
  | n, a :: rest => node a n :: nodesFrom node text (n + (text a).length) rest

/-- The tree of white space or a comment. -/
def blankNode (b : Blank) (n : Nat) : Node :=
  nodeAt whole ids .blank n b.text.length
    [nodeAt whole ids (match b with | .spaces _ _ _ => .spaces | .comment _ _ => .comment) n
      b.text.length []]

/-- The tree of white space and comments. -/
def layoutNode (layout : Layout) (n : Nat) : Node :=
  nodeAt whole ids .layout n (Layout.text layout).length
    (nodesFrom (blankNode whole ids) Blank.text n layout)

/-- The tree of a token and the layout after it. -/
def tokenNode (p token : Part) (text : Text) (after : Layout) (n : Nat) : Node :=
  nodeAt whole ids p n (text.length + (Layout.text after).length)
    [nodeAt whole ids token n text.length [], layoutNode whole ids after (n + text.length)]

/-- The tree of an alternative's terms: a sequence, or the only one of them. -/
def termsNode (n length : Nat) : List Node → Node
  | [term] => term
  | terms =>
    nodeAt whole ids .sequence n length
      (terms.take 1 ++ [⟨ids .moreTerms, .plus, [], whole, (terms.head?.map Node.stop).getD n,
        (n + length : Nat), terms.drop 1⟩])

/-- The tree of an alternative. -/
def alternativeNode (n length : Nat) (terms : List Node) : Node :=
  nodeAt whole ids .alternative n length [termsNode whole ids n length terms]

/-- The tree of a branch with its slash. -/
def branchNode (before : Layout) (length : Nat) (n : Nat) (terms : List Node) : Node :=
  nodeAt whole ids .orTerm n (1 + (Layout.text before).length + length)
    [nodeAt whole ids .slash n 1 [], layoutNode whole ids before (n + 1),
      alternativeNode whole ids (n + 1 + (Layout.text before).length) length terms]

end

/-- What the tree of a spelling is: one node, or several. -/
@[reducible] def Shape : Rank → Type
  | .terms | .branches => List Node
  | .atom | .term | .expression => Node

namespace Spelling

variable (whole : Text) (ids : Part → ExprId)

/-- The tree of a spelling at an offset. -/
def node : {r : Rank} → Spelling r → Nat → Shape r
  | _, reference label after, n =>
    let length := label.text.length + (Layout.text after).length
    nodeAt whole ids .atom n length [nodeAt whole ids .reference n length
      [tokenNode whole ids .label .labelText label.text after n,
        nodeAt whole ids .notEquals (n + length) 0 []]]
  | _, literal quoted after, n =>
    nodeAt whole ids .atom n (quoted.text.length + (Layout.text after).length)
      [tokenNode whole ids .literal .quoted quoted.text after n]
  | _, regex quoted flags after, n =>
    let inside := n + 1 + quoted.text.length
    let length := 1 + quoted.text.length + flags.text.length + (Layout.text after).length
    nodeAt whole ids .atom n length [nodeAt whole ids .regex n length
      [nodeAt whole ids .tilde n 1 [], nodeAt whole ids .quoted (n + 1) quoted.text.length [],
        nodeAt whole ids .flags inside flags.text.length [],
        layoutNode whole ids after (inside + flags.text.length)]]
  | _, group before inner after, n =>
    let inside := n + 1 + (Layout.text before).length
    let closing := inside + inner.text.length
    let length := 1 + (Layout.text before).length + inner.text.length + 1 + (Layout.text after).length
    nodeAt whole ids .atom n length [nodeAt whole ids .parenthesized n length
      [nodeAt whole ids .opening n 1 [], layoutNode whole ids before (n + 1), inner.node inside,
        nodeAt whole ids .closing closing 1 [], layoutNode whole ids after (closing + 1)]]
  | _, negation member, n =>
    nodeAt whole ids .term n (1 + member.text.length)
      [nodeAt whole ids .notTerm n (1 + member.text.length)
        [nodeAt whole ids .bang n 1 [], member.node (n + 1),
          layoutNode whole ids [] (n + 1 + member.text.length)]]
  | _, lookahead member, n =>
    nodeAt whole ids .term n (1 + member.text.length)
      [nodeAt whole ids .lookaheadTerm n (1 + member.text.length)
        [nodeAt whole ids .ampersand n 1 [], member.node (n + 1),
          layoutNode whole ids [] (n + 1 + member.text.length)]]
  | _, quantified member quantifier after, n =>
    let length := member.text.length + (1 + (Layout.text after).length)
    nodeAt whole ids .term n length [nodeAt whole ids .quantified n length
      [member.node n, tokenNode whole ids .quantifier .quantifierSign [quantifier.symbol] after
        (n + member.text.length)]]
  | _, plain atom, n => nodeAt whole ids .term n atom.text.length [atom.node n]
  | _, last term, n => [term.node n]
  | _, more term rest, n => term.node n :: rest.node (n + term.text.length)
  | _, lastBranch before terms, n =>
    [branchNode whole ids before terms.text.length n
      (terms.node (n + 1 + (Layout.text before).length))]
  | _, moreBranches before terms rest, n =>
    let inside := n + 1 + (Layout.text before).length
    branchNode whole ids before terms.text.length n (terms.node inside) ::
      rest.node (inside + terms.text.length)
  | _, single terms, n =>
    nodeAt whole ids .expression n terms.text.length
      [termsNode whole ids n terms.text.length (terms.node n)]
  | _, choice first rest, n =>
    let length := first.text.length + rest.text.length
    nodeAt whole ids .expression n length [nodeAt whole ids .ored n length
      [alternativeNode whole ids n first.text.length (first.node n),
        nodeAt whole ids .orTerms (n + first.text.length) rest.text.length
          (rest.node (n + first.text.length))]]

end Spelling

/-- The tree of a rule. -/
def RuleSpelling.node (whole : Text) (ids : Part → ExprId) (r : RuleSpelling) (n : Nat) : Node :=
  let equals := n + r.label.text.length + (Layout.text r.afterLabel).length
  let body := equals + 1 + (Layout.text r.afterEquals).length
  nodeAt whole ids .rule n r.text.length
    [tokenNode whole ids .label .labelText r.label.text r.afterLabel n,
      tokenNode whole ids .equals .equalsSign ['='] r.afterEquals equals, r.body.node whole ids body]

/-- The tree of a definition text. -/
def RulesSpelling.node (whole : Text) (ids : Part → ExprId) (r : RulesSpelling) : Node :=
  let before := (Layout.text r.before).length
  let length := (r.rules.flatMap RuleSpelling.text).length
  nodeAt whole ids .rules 0 (before + length)
    [layoutNode whole ids r.before 0, nodeAt whole ids .ruleList before length
      (nodesFrom (RuleSpelling.node whole ids) RuleSpelling.text before r.rules)]

end Pegboard.Syntax
