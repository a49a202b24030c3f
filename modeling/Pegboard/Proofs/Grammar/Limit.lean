import Pegboard.Grammar.Meta
import Pegboard.Grammar.Render

/-!
# Matching, rendering and compiling to a depth

Matches and renderings nest to some depth, and in use the depth is fixed.  A statement
at every depth covers the one in use, and says what would come of another one.

`Reaches` is how such a function has a result: at every depth that is enough it gives the
result, and at any other depth it says that this is too deep and nothing else.
-/

namespace Pegboard

/-- A function of the depth gives a result wherever the depth is enough. -/
structure Reaches {α : Type} (f : Nat → Except Error α) (result : α) : Prop where
  /-- Some depth is enough, and so is every greater one. -/
  enough : ∃ depth, ∀ depth', depth ≤ depth' → f depth' = .ok result
  /-- A depth that is not enough is too small. -/
  otherwise : ∀ depth, f depth = .ok result ∨ f depth = .error .tooDeep

namespace Grammar

theorem render_eq_renderTo (g : Grammar) : g.render = g.renderTo Store.depthLimit := rfl

variable [Platform]

theorem compile_eq_compileTo : compile = compileTo Store.depthLimit := rfl

theorem compileTo_of_compile {source : Text} {start : Option Text} {g : Grammar}
    (h : compile source start = .ok g) : compileTo Store.depthLimit source start = .ok g := h

end Grammar

end Pegboard
