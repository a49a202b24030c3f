import Pegboard.Proofs.Grammar.Limit
import Pegboard.Proofs.Syntax.Depth
import Pegboard.Proofs.Syntax.Descent

/-!
# Reading a definition text with a grammar

A grammar that speaks the definition language gives for a text the tree of the spelling
that is read there, or nothing if nothing is read.  The only other outcome is that the
match nests too deep, and it does not if there are few signs in the text that nest.  So
reading a text as a whole gives the tree of a spelling of just this text, or says where
reading stopped.
-/

namespace Pegboard

namespace Syntax

open Store

/-- The expressions that a store speaks the language with are closed. -/
theorem Speaks.closed {full : Bool} {store : Store} {ids : Part → ExprId}
    (hs : Speaks full store ids) :
    store.Closed fun e => ∃ p : Part, (p.isExtra = true → full = true) ∧ e = ids p := by
  rintro e ⟨p, hp, rfl⟩
  refine ⟨_, hs p hp, p.form_finished full ids, ?_⟩
  intro m hm
  change m ∈ (p.form full ids).members at hm
  rw [Part.members_form] at hm
  obtain ⟨q, hq, rfl⟩ := List.mem_map.1 hm
  exact ⟨q, Part.isExtra_members hp hq, rfl⟩

theorem RulesSpelling.stop_node (r : RulesSpelling) (whole : Text) (ids : Part → ExprId) :
    (r.node whole ids).stop = r.text.length := by
  simp only [RulesSpelling.node, nodeAt, RulesSpelling.text, List.length_append, Nat.zero_add]

/-- The tree of a text ends where the text does if the whole text is read. -/
theorem stop_eq_length {full : Bool} {t : Text} {ids : Part → ExprId} {r : RulesSpelling}
    {rest : Text} (h : readRules full t = some (r, rest)) :
    (r.node t ids).stop = t.length ↔ rest = [] := by
  have hlength := congrArg List.length (readRules_text h)
  rw [List.length_append] at hlength
  rw [r.stop_node, ← List.length_eq_zero_iff]
  omega

/-- A grammar speaks the language and has the rules that reading starts from. -/
def SpeaksAs (full : Bool) (ids : Part → ExprId) (g : Grammar) : Prop :=
  Speaks full g.store ids ∧ g.table.rules.lookup Part.rules.name = some (ids .rules) ∧
    g.table.rules.lookup Part.layout.name = some (ids .layout)

instance (full : Bool) (ids : Part → ExprId) (g : Grammar) : Decidable (SpeaksAs full ids g) :=
  inferInstanceAs (Decidable (_ ∧ _ ∧ _))

namespace SpeaksAs

variable {full : Bool} {ids : Part → ExprId} {g : Grammar}

theorem rule_eq {p : Part} (hlookup : g.table.rules.lookup p.name = some (ids p)) :
    g.table.rule p.name = .ok (ids p) := by
  rw [RuleTable.rule, hlookup]

variable [Platform]

theorem parseTo_eq {p : Part} (hlookup : g.table.rules.lookup p.name = some (ids p)) (depth : Nat)
    (t : Text) (pos : Int) :
    g.parseTo depth t (some p.name) pos = g.store.matchAt t depth (ids p) pos := by
  rw [Grammar.parseTo, Option.getD_some, rule_eq hlookup]

variable (hs : SpeaksAs full ids g)
include hs

/-- A text is matched as the tree of the spelling that is read there. -/
theorem parseTo_rules [Platform.ReadsTokens] (depth : Nat) (t : Text) :
    g.parseTo depth t (some "rules".toText) 0 =
        .ok ((readRules full t).map fun x => x.1.node t ids) ∨
      g.parseTo depth t (some "rules".toText) 0 = .error .tooDeep := by
  have hparse := parseTo_eq hs.2.1 depth t 0
  rw [show "rules".toText = Part.rules.name from rfl, hparse]
  exact (derives_rules hs.1).matchAt_or_tooDeep hs.1.closed ⟨.rules, nofun, rfl⟩ depth

/-- The layout at the start of a text is matched as such. -/
theorem parseTo_layout [Platform.ReadsTokens] (depth : Nat) (t : Text) :
    g.parseTo depth t (some "_".toText) 0 = .ok (some (layoutNode t ids (readLayout t).1 0)) ∨
      g.parseTo depth t (some "_".toText) 0 = .error .tooDeep := by
  have h : Derives g.store t _ _ _ := derives_layout hs.1 (Nat.zero_le t.length)
  rw [List.drop_zero] at h
  have hparse := parseTo_eq hs.2.2 depth t 0
  rw [show "_".toText = Part.layout.name from rfl, hparse]
  exact h.matchAt_or_tooDeep hs.1.closed ⟨.layout, nofun, rfl⟩ depth

/-- A tree of a text is that of the spelling that is read there. -/
theorem exists_read_of_parseTo [Platform.ReadsTokens] {depth : Nat} {t : Text} {tree : Node}
    (h : g.parseTo depth t (some "rules".toText) 0 = .ok (some tree)) :
    ∃ r rest, readRules full t = some (r, rest) ∧ tree = r.node t ids := by
  rcases hs.parseTo_rules depth t with hparse | hparse
  · obtain ⟨⟨r, rest⟩, hread, hnode⟩ := Option.map_eq_some_iff.1 (Except.ok.inj (hparse.symm.trans h))
    exact ⟨r, rest, hread, hnode.symm⟩
  · cases hparse.symm.trans h

theorem parse_rules [Platform.ReadsTokens] (t : Text) :
    g.parse t (some "rules".toText) 0 = .ok ((readRules full t).map fun x => x.1.node t ids) ∨
      g.parse t (some "rules".toText) 0 = .error .tooDeep :=
  parseTo_rules hs depthLimit t

/-- A text with few signs that nest is not too deep. -/
theorem parseTo_rules_of_nesting [Platform.ReadsTokens] {depth : Nat} {t : Text}
    (h : 18 + 13 * nesting t 0 < depth) :
    g.parseTo depth t (some "rules".toText) 0 =
      .ok ((readRules full t).map fun x => x.1.node t ids) := by
  obtain ⟨o, ho⟩ := hs.1.matchAt_answers t depth (p := .rules) nofun (Int.le_refl 0) h
  rw [← parseTo_eq hs.2.1 depth t 0] at ho
  rcases hs.parseTo_rules depth t with hparse | hparse
  · exact hparse
  · cases hparse.symm.trans ho

theorem parseTo_layout_of_nesting [Platform.ReadsTokens] {depth : Nat} {t : Text}
    (h : 18 + 13 * nesting t 0 < depth) :
    g.parseTo depth t (some "_".toText) 0 = .ok (some (layoutNode t ids (readLayout t).1 0)) := by
  have hrank : Part.layout.rank ≤ 18 := by decide
  obtain ⟨o, ho⟩ := hs.1.matchAt_answers t depth (p := .layout) nofun (Int.le_refl 0) (by omega)
  rw [← parseTo_eq hs.2.2 depth t 0] at ho
  rcases hs.parseTo_layout depth t with hparse | hparse
  · exact hparse
  · cases hparse.symm.trans ho

/-- Only a text with many signs that nest is too deep. -/
theorem le_of_rules_tooDeep [Platform.ReadsTokens] {depth : Nat} {t : Text}
    (h : g.parseTo depth t (some "rules".toText) 0 = .error .tooDeep) :
    depth ≤ 18 + 13 * nesting t 0 := by
  by_contra hdepth
  rw [hs.parseTo_rules_of_nesting (Nat.lt_of_not_le hdepth)] at h
  cases h

theorem le_of_layout_tooDeep [Platform.ReadsTokens] {depth : Nat} {t : Text}
    (h : g.parseTo depth t (some "_".toText) 0 = .error .tooDeep) :
    depth ≤ 18 + 13 * nesting t 0 := by
  by_contra hdepth
  rw [hs.parseTo_layout_of_nesting (Nat.lt_of_not_le hdepth)] at h
  cases h

/-- At the depth that a parse has, a few hundred such signs are not too deep. -/
theorem parse_rules_of_nesting [Platform.ReadsTokens] {t : Text} (h : nesting t 0 ≤ 300) :
    g.parse t (some "rules".toText) 0 = .ok ((readRules full t).map fun x => x.1.node t ids) := by
  refine hs.parseTo_rules_of_nesting ?_
  rw [depthLimit]
  omega

end SpeaksAs

end Syntax

end Pegboard
