import Pegboard.Proofs.Syntax.Lexing

/-!
# The pieces of a spelling

A spelling is a row of tokens, each with the layout after it.  `Spelling.pieces` lists them
in the order of the text and forgets what they make up.

A text is cut into pieces by reading a token and then all the layout after it, over and over
(`Cuts`).  This is how a text splits into lexemes (`Cuts.lexes`).
-/

namespace Pegboard.Syntax

/-! ## Pieces -/

/-- A token and the layout after it. -/
structure Piece where
  /-- The token. -/
  token : Token
  /-- The layout. -/
  after : Layout

def Piece.text (p : Piece) : Text := p.token.text ++ Layout.text p.after

/-- The token, and whether there is layout after it. -/
def Piece.lexeme (p : Piece) : Lexeme := ⟨p.token, !(Layout.text p.after).isEmpty⟩

/-- The text of pieces. -/
def textOf (ps : List Piece) : Text := ps.flatMap Piece.text

@[simp] theorem textOf_nil : textOf [] = [] := rfl

@[simp] theorem textOf_cons (p : Piece) (ps : List Piece) :
    textOf (p :: ps) = p.token.text ++ (Layout.text p.after ++ textOf ps) := by
  rw [textOf, List.flatMap_cons, Piece.text, List.append_assoc, textOf]

@[simp] theorem textOf_append (ps qs : List Piece) : textOf (ps ++ qs) = textOf ps ++ textOf qs :=
  List.flatMap_append

theorem textOf_flatMap {α : Type} (pieces : α → List Piece) (as : List α) :
    textOf (as.flatMap pieces) = as.flatMap fun a => textOf (pieces a) := by
  rw [textOf, List.flatMap_assoc]
  rfl

/-- The tokens and the layout of a spelling. -/
def Spelling.pieces : {r : Rank} → Spelling r → List Piece
  | _, reference label after => [⟨.label label, after⟩]
  | _, literal quoted after => [⟨.literal quoted, after⟩]
  | _, regex quoted flags after => [⟨.regex quoted flags, after⟩]
  | _, group before inner after =>
    ⟨.sign .opening, before⟩ :: (inner.pieces ++ [⟨.sign .closing, after⟩])
  | _, negation member => ⟨.sign .negation, []⟩ :: member.pieces
  | _, lookahead member => ⟨.sign .lookahead, []⟩ :: member.pieces
  | _, quantified member quantifier after => member.pieces ++ [⟨.sign (.quantifier quantifier), after⟩]
  | _, plain atom => atom.pieces
  | _, last term => term.pieces
  | _, more term rest => term.pieces ++ rest.pieces
  | _, lastBranch before terms => ⟨.sign .slash, before⟩ :: terms.pieces
  | _, moreBranches before terms rest => ⟨.sign .slash, before⟩ :: (terms.pieces ++ rest.pieces)
  | _, single terms => terms.pieces
  | _, choice first rest => first.pieces ++ rest.pieces

/-- The tokens and the layout of a branch with its slash. -/
def Spelling.branchPieces (b : Layout × Spelling .terms) : List Piece :=
  ⟨.sign .slash, b.1⟩ :: b.2.pieces

/-- The tokens and the layout of a rule. -/
def RuleSpelling.pieces (r : RuleSpelling) : List Piece :=
  ⟨.label r.label, r.afterLabel⟩ :: ⟨.sign .equals, r.afterEquals⟩ :: r.body.pieces

/-- The tokens of a definition text and the layout after them. -/
def RulesSpelling.pieces (r : RulesSpelling) : List Piece := r.rules.flatMap RuleSpelling.pieces

theorem Spelling.textOf_pieces : {r : Rank} → (c : Spelling r) → textOf c.pieces = c.text
  | _, reference _ _ => by simp [pieces, text, Token.text]
  | _, literal _ _ => by simp [pieces, text, Token.text]
  | _, regex _ _ _ => by simp [pieces, text, Token.text]
  | _, group _ inner _ => by simp [pieces, text, Token.text, Sign.symbol, textOf_pieces inner]
  | _, negation member => by
    simp [pieces, text, Token.text, Sign.symbol, Layout.text, textOf_pieces member]
  | _, lookahead member => by
    simp [pieces, text, Token.text, Sign.symbol, Layout.text, textOf_pieces member]
  | _, quantified member _ _ => by simp [pieces, text, Token.text, Sign.symbol, textOf_pieces member]
  | _, plain atom => textOf_pieces atom
  | _, last term => textOf_pieces term
  | _, more term rest => by simp [pieces, text, textOf_pieces term, textOf_pieces rest]
  | _, lastBranch _ terms => by simp [pieces, text, Token.text, Sign.symbol, textOf_pieces terms]
  | _, moreBranches _ terms rest => by
    simp [pieces, text, Token.text, Sign.symbol, textOf_pieces terms, textOf_pieces rest]
  | _, single terms => textOf_pieces terms
  | _, choice first rest => by simp [pieces, text, textOf_pieces first, textOf_pieces rest]

theorem RuleSpelling.textOf_pieces (r : RuleSpelling) : textOf r.pieces = r.text := by
  simp [pieces, text, Token.text, Sign.symbol, Spelling.textOf_pieces]

theorem RulesSpelling.textOf_pieces (r : RulesSpelling) :
    r.text = Layout.text r.before ++ textOf r.pieces := by
  rw [pieces, textOf_flatMap, text, funext RuleSpelling.textOf_pieces]

theorem Spelling.pieces_ofTerms : ∀ (t : Spelling .term) (ts : List (Spelling .term)),
    (ofTerms t ts).pieces = (t :: ts).flatMap pieces
  | t, [] => by simp [ofTerms, pieces]
  | t, t' :: rest => by simp [ofTerms, pieces, pieces_ofTerms t' rest]

theorem Spelling.pieces_ofBranches : ∀ (b : Layout × Spelling .terms) (bs : List (Layout × Spelling .terms)),
    (ofBranches b bs).pieces = (b :: bs).flatMap branchPieces
  | (before, terms), [] => by simp [ofBranches, pieces, branchPieces]
  | (before, terms), b :: rest => by simp [ofBranches, pieces, pieces_ofBranches b rest, branchPieces]

/-! ## Cutting a text -/

/-- A text is cut into pieces, up to what is left of it. -/
inductive Cuts : Text → List Piece → Text → Prop where
  | nil (s : Text) : Cuts s [] s
  | cons {s s' rest : Text} {t : Token} {ps : List Piece} (token : t.Reads s s')
      (more : Cuts (readLayout s').2 ps rest) : Cuts s (⟨t, (readLayout s').1⟩ :: ps) rest

/-- A token and the layout after it. -/
theorem Cuts.single {s s' : Text} {t : Token} (h : t.Reads s s') :
    Cuts s [⟨t, (readLayout s').1⟩] (readLayout s').2 := .cons h (.nil _)

theorem Cuts.append {s mid rest : Text} {ps qs : List Piece} (h : Cuts s ps mid) (h' : Cuts mid qs rest) :
    Cuts s (ps ++ qs) rest := by
  induction h with
  | nil => exact h'
  | cons token _ ih => exact .cons token (ih h')

theorem Cuts.text_eq {s rest : Text} {ps : List Piece} (h : Cuts s ps rest) : s = textOf ps ++ rest := by
  induction h with
  | nil => rfl
  | @cons s s' rest t ps token more ih =>
    rw [textOf_cons, List.append_assoc, List.append_assoc, ← ih, ← readLayout_text, ← token.text]

theorem Cuts.lexes {s rest : Text} {ps : List Piece} (h : Cuts s ps rest) {ls : List Lexeme}
    (hrest : Lexes rest ls) : Lexes s (ps.map Piece.lexeme ++ ls) := by
  induction h with
  | nil => exact hrest
  | cons token _ ih => exact token.lexes (ih hrest)

end Pegboard.Syntax
