import Pegboard.Text.Basic

/-!
# The definition language, described in itself

Two texts in the definition language.  `ruleSource` describes the whole language.
`coreSource` describes the part of it that `ruleSource` is written in: it has no
parentheses and no lookahead.
-/

namespace Pegboard

/-- The text of lines, each ended by a line feed. -/
def Text.ofLines (lines : List String) :
    Text := lines.flatMap fun line => line.toText ++ [.char '\n']

/-- The rules of the definition language. -/
def ruleSource : Text :=
  Text.ofLines
   ["# Ignored things (represented by _) are typically hung off the end of the",
    "# leafmost kinds of nodes. Literals like \"/\" count as leaves.",
    "",
    "rules = _ rule+",
    "rule = label equals expression",
    "equals = \"=\" _",
    "literal = spaceless_literal _",
    "",
    "# So you can't spell a regex like `~\"...\" ilm`:",
    "spaceless_literal = ~\"\\\"[^\\\"\\\\\\\\]*(?:\\\\\\\\.[^\\\"\\\\\\\\]*)*\\\"\"is",
    "",
    "expression = ored / sequence / term",
    "or_term = \"/\" _ alternative",
    "ored = alternative or_term+",
    "alternative = sequence / term",
    "sequence = term term+",
    "not_term = \"!\" term _",
    "lookahead_term = \"&\" term _",
    "term = not_term / lookahead_term / quantified / atom",
    "quantified = atom quantifier",
    "atom = reference / literal / regex / parenthesized",
    "regex = \"~\" spaceless_literal ~\"[ilmsuxa]*\"i _",
    "parenthesized = \"(\" _ expression \")\" _",
    "quantifier = ~\"[*+?]\" _",
    "reference = label !equals",
    "",
    "# A subsequent equal sign is the only thing that distinguishes a label",
    "# (which begins a new rule) from a reference (which is just a pointer to a",
    "# rule defined somewhere else):",
    "label = ~\"[a-zA-Z_][a-zA-Z_0-9]*\" _",
    "",
    "# _ = ~\"\\s*(?:#[^\\r\\n]*)?\\s*\"",
    "_ = meaninglessness*",
    "meaninglessness = ~\"\\s+\" / comment",
    "comment = ~\"#[^\\r\\n]*\""]

/-- The rules of the part of the language that describes the whole. -/
def coreSource : Text :=
  Text.ofLines
   ["rules = _ rule+",
    "rule = label equals expression",
    "equals = \"=\" _",
    "literal = spaceless_literal _",
    "spaceless_literal = ~\"\\\"[^\\\"\\\\\\\\]*(?:\\\\\\\\.[^\\\"\\\\\\\\]*)*\\\"\"is",
    "expression = ored / sequence / term",
    "or_term = \"/\" _ alternative",
    "ored = alternative or_term+",
    "alternative = sequence / term",
    "sequence = term term+",
    "not_term = \"!\" term _",
    "term = not_term / quantified / atom",
    "quantified = atom quantifier",
    "atom = reference / literal / regex",
    "regex = \"~\" spaceless_literal ~\"[ilmsuxa]*\"i _",
    "quantifier = ~\"[*+?]\" _",
    "reference = label !equals",
    "label = ~\"[a-zA-Z_][a-zA-Z_0-9]*\" _",
    "_ = meaninglessness*",
    "meaninglessness = ~\"\\s+\" / comment",
    "comment = ~\"#[^\\r\\n]*\""]

end Pegboard
