import Mathlib.Data.Finset.Dedup
import Pegboard.Proofs.Match.LeftRecursion
import Pegboard.Proofs.Regex.Extent
import Pegboard.Proofs.Syntax.Bootstrap

/-!
# Matching and compiling come to an end

The parts of the definition language are ranked, and only behind a sign does a part hold one
of no lower rank.  A sign is never nullable, so that what stands behind it is not called
from the left.  Calls from the left therefore go down in rank (`Speaks.rank_leftCalls`), and
the language is not left recursive.

`not_leftRecursive_terminates` says what comes of this for any grammar, and then for the
grammar of definitions: the depth that it takes to read a text is linear in its length.
-/

namespace Pegboard

namespace Syntax

open Store

section Parts

variable [Platform] {full : Bool} {store : Store} {ids : Part → ExprId} (hs : Speaks full store ids)
include hs

/-- A part calls parts of lower rank from the left. -/
theorem Speaks.rank_leftCalls {p : Part} (hp : p.isExtra = true → full = true) {m : ExprId}
    (h : LeftCalls store (ids p) m) : ∃ q ∈ p.members full, m = ids q ∧ q.rank < p.rank := by
  cases hnested : p.isNested with
  | false =>
    obtain ⟨cell, hc, hm⟩ := h.mem_members
    cases (hs p hp).symm.trans hc
    change m ∈ (p.form full ids).members at hm
    rw [Part.members_form] at hm
    obtain ⟨q, hq, rfl⟩ := List.mem_map.1 hm
    exact ⟨q, hq, rfl, Part.rank_members hnested hq⟩
  | true =>
    obtain ⟨sign, c, rest, hmembers, hform, hliteral, -, hrank, -⟩ := Part.form_nested full ids hnested
    have hmem : sign ∈ p.members full := hmembers ▸ List.mem_cons_self
    have hcell := hs p hp
    rw [hform] at hcell
    -- The sign stands first and uses up a character.
    have hsign : ¬ Nullable store (ids sign) := by
      have hc := hs sign (Part.isExtra_members hp hmem)
      rw [hliteral] at hc
      intro hnull
      cases hnull <;> simp_all
    cases h with
    | choice hc _ => cases hcell.symm.trans hc
    | unary hc => cases hcell.symm.trans hc
    | @sequence _ before after _ hc hbefore =>
      have hsplit : ids sign :: rest.map ids = before ++ m :: after := by
        have := hcell.symm.trans hc
        simp_all
      cases before with
      | nil => exact ⟨sign, hmem, (List.cons.inj hsplit).1.symm, hrank⟩
      | cons b before =>
        rw [← (List.cons.inj hsplit).1] at hbefore
        exact absurd (hbefore _ List.mem_cons_self) hsign

/-- The language is not left recursive. -/
theorem Speaks.acyclic {p : Part} (hp : p.isExtra = true → full = true) :
    ¬ Relation.TransGen (LeftCalls store) (ids p) (ids p) := by
  refine not_transGen_of_ranked
    (fun e n => ∃ q : Part, (q.isExtra = true → full = true) ∧ e = ids q ∧ q.rank = n) ?_
    p.rank (ids p) ⟨p, hp, rfl, rfl⟩
  rintro _ _ m ⟨q, hq, rfl, rfl⟩ hm
  obtain ⟨q', hmem, rfl, hlt⟩ := hs.rank_leftCalls hq hm
  exact ⟨_, hlt, q', Part.isExtra_members hq hmem, rfl, rfl⟩

end Parts

/-- The parts of the grammar of definitions. -/
def definitionParts : Finset ExprId := (Part.all.map definitionIds).toFinset

theorem mem_definitionParts {e : ExprId} : e ∈ definitionParts ↔ ∃ p, e = definitionIds p := by
  rw [definitionParts, List.mem_toFinset, List.mem_map]
  exact ⟨fun ⟨p, _, hp⟩ => ⟨p, hp.symm⟩, fun ⟨p, hp⟩ => ⟨p, p.mem_all, hp.symm⟩⟩

theorem card_definitionParts : definitionParts.card = 38 := by decide

theorem SpeaksAs.closed_definitionParts {g : Grammar} (hs : SpeaksAs true definitionIds g) :
    g.store.Closed (· ∈ definitionParts) := by
  intro e he
  obtain ⟨p, rfl⟩ := mem_definitionParts.1 he
  obtain ⟨cell, hc, hform, hmembers⟩ := hs.1.closed (definitionIds p) ⟨p, fun _ => rfl, rfl⟩
  refine ⟨cell, hc, hform, fun m hm => ?_⟩
  obtain ⟨q, -, rfl⟩ := hmembers m hm
  exact mem_definitionParts.2 ⟨q, rfl⟩

theorem SpeaksAs.acyclic_definitionParts [Platform] {g : Grammar}
    (hs : SpeaksAs true definitionIds g) :
    ∀ e ∈ definitionParts, ¬ Relation.TransGen (LeftCalls g.store) e e := by
  intro e he
  obtain ⟨p, rfl⟩ := mem_definitionParts.1 he
  exact hs.1.acyclic fun _ => rfl

/-- A part that is a rule of the grammar has one result at every depth that is linear in the
length of the text. -/
theorem SpeaksAs.exists_parseTo [Platform] [Platform.Bounded] {g : Grammar}
    (hs : SpeaksAs true definitionIds g) {p : Part}
    (hlookup : g.table.rules.lookup p.name = some (definitionIds p)) (text : Text) :
    ∃ r, ∀ depth, 38 * (text.length + 2) ≤ depth → g.parseTo depth text (some p.name) 0 = .ok r := by
  obtain ⟨r, hr⟩ := exists_matchAt_of_acyclic hs.closed_definitionParts hs.acyclic_definitionParts
    (mem_definitionParts.2 ⟨p, rfl⟩) text (Int.le_refl 0)
  rw [card_definitionParts] at hr
  exact ⟨r, fun depth hdepth => (SpeaksAs.parseTo_eq hlookup depth text 0).trans (hr depth hdepth)⟩

/-- Reading a text as a whole has one result at every such depth, and is not too deep. -/
theorem SpeaksAs.exists_readSourceTo [Platform] [Platform.Bounded] {g : Grammar}
    (hs : SpeaksAs true definitionIds g) (source : Text) :
    ∃ result, result ≠ .error .tooDeep ∧
      ∀ depth, 38 * (source.length + 2) ≤ depth → g.readSourceTo depth source = result := by
  obtain ⟨tree, htree⟩ := hs.exists_parseTo (p := .rules) hs.2.1 source
  obtain ⟨skipped, hskipped⟩ := hs.exists_parseTo (p := .layout) hs.2.2 source
  rcases tree with _ | tree
  · refine ⟨.error (.stoppedAt source ((skipped.map Node.stop).getD 0)), nofun, fun depth hdepth => ?_⟩
    have hrules : g.parseTo depth source (some "rules".toText) 0 = .ok none := htree depth hdepth
    have hlayout : g.parseTo depth source (some "_".toText) 0 = .ok skipped := hskipped depth hdepth
    simp only [Grammar.readSourceTo, hrules, hlayout]
  · refine ⟨if tree.stop = source.length then .ok tree else .error (.stoppedAt source tree.stop), ?_,
      fun depth hdepth => ?_⟩
    · split <;> nofun
    · have hrules : g.parseTo depth source (some "rules".toText) 0 = .ok (some tree) := htree depth hdepth
      simp only [Grammar.readSourceTo, hrules]

end Syntax

namespace Grammar

open Store Syntax

/-- Without left recursion every match comes to an end.  If no expression of a closed set
calls itself from the left, a match of one of them at any offset has one result, a node or
nothing, at every depth of at least the number of expressions times the length of the text
and two.  The grammar of definitions is such a grammar of 38 expressions, so that reading a
text as a whole, as compiling does first, comes to a result at a depth that is linear in the
length of the text. -/
theorem not_leftRecursive_terminates [Platform] [Platform.Bounded] :
    (∀ (store : Store) (S : Finset ExprId), store.Closed (· ∈ S) →
      (∀ e ∈ S, ¬ Relation.TransGen (LeftCalls store) e e) →
      ∀ e ∈ S, ∀ (text : Text) (pos : Int), 0 ≤ pos → ∃ r, ∀ depth,
        S.card * (text.length + 2) ≤ depth → store.matchAt text depth e pos = .ok r) ∧
    ∀ [Platform.ReadsTokens], ∃ (reader : Grammar) (S : Finset ExprId), definitions = .ok reader ∧
      S.card = 38 ∧
      (∀ e ∈ reader.table.roots, e ∈ S) ∧ reader.store.Closed (· ∈ S) ∧
      (∀ e ∈ S, ¬ Relation.TransGen (LeftCalls reader.store) e e) ∧
      ∀ source, ∃ result, result ≠ .error .tooDeep ∧
        ∀ depth, 38 * (source.length + 2) ≤ depth → reader.readSourceTo depth source = result := by
  refine ⟨fun store S hclosed hacyclic e he text pos hpos =>
    exists_matchAt_of_acyclic hclosed hacyclic he text hpos, ?_⟩
  intro _
  obtain ⟨reader, hreader, hs, hroots⟩ := definitions_parts
  exact ⟨reader, definitionParts, hreader, card_definitionParts,
    fun e he => List.mem_toFinset.2 (hroots he), hs.closed_definitionParts, hs.acyclic_definitionParts,
    hs.exists_readSourceTo⟩

/-- The rule `r = ("a"?)* "b" r?`, which calls itself only behind a character and repeats
what may match without moving. -/
def coil : Store :=
  #[⟨[], .literal ['a']⟩, ⟨[], .unary .optional 0⟩, ⟨[], .unary .star 1⟩, ⟨[], .literal ['b']⟩,
    ⟨[], .unary .optional 5⟩, ⟨['r'], .compound .sequence [2, 3, 4] true⟩]

theorem closed_coil : coil.Closed (· ∈ Finset.range 6) := by
  intro e he
  match e, Finset.mem_range.1 he with
  | 0, _ | 1, _ | 2, _ | 3, _ | 4, _ | 5, _ => exact ⟨_, rfl, trivial, by decide⟩

attribute [local instance] Platform.builtIn

/-- The rule is not called from the left, so that it ranks below its last member. -/
theorem acyclic_coil (e : ExprId) (he : e ∈ Finset.range 6) :
    ¬ Relation.TransGen (LeftCalls coil) e e := by
  have hb : ¬ Nullable coil 3 := by
    intro hnull
    cases hnull <;> simp_all [coil]
  refine not_transGen_of_ranked (fun e n => e < 6 ∧ n = if e = 4 then 6 else e) ?_ _ e
    ⟨Finset.mem_range.1 he, rfl⟩
  rintro e _ m ⟨he, rfl⟩ hm
  obtain ⟨cell, hc, hmem⟩ := hm.mem_members
  match e, he with
  | 0, _ | 3, _ =>
    cases hc
    cases hmem
  | 1, _ | 2, _ | 4, _ =>
    cases hc
    cases List.mem_singleton.1 hmem
    exact ⟨_, by decide, by decide, rfl⟩
  | 5, _ =>
    cases hc
    rcases List.mem_cons.1 hmem with rfl | hmem
    · exact ⟨_, by decide, by decide, rfl⟩
    rcases List.mem_cons.1 hmem with rfl | hmem
    · exact ⟨_, by decide, by decide, rfl⟩
    cases List.mem_singleton.1 hmem
    -- The last member stands behind `"b"`.
    cases hm with
    | choice hc _ => cases hc
    | unary hc => cases hc
    | @sequence _ before after _ hc hbefore =>
      obtain ⟨-, hsplit, -⟩ : _ ∧ [2, 3, 4] = before ++ 4 :: after ∧ _ := by simpa [coil] using hc
      rcases before with _ | ⟨b, _ | ⟨b', before⟩⟩
      · cases hsplit
      · cases hsplit
      · cases (List.cons.inj (List.cons.inj hsplit).2).1
        exact absurd (hbefore 3 (by simp)) hb

/-- A match of two coils answers at every depth of at least six times seven. -/
theorem not_leftRecursive_terminates_coil :
    (∀ e ∈ Finset.range 6, ¬ Relation.TransGen (LeftCalls coil) e e) ∧
    ∃ n, n.stop = 5 ∧ ∀ depth, 42 ≤ depth → coil.matchAt "aabab".toText depth 5 0 = .ok (some n) := by
  refine ⟨acyclic_coil, ?_⟩
  obtain ⟨r, hr⟩ := not_leftRecursive_terminates.1 coil (Finset.range 6) closed_coil acyclic_coil 5
    (by decide) "aabab".toText 0 (Int.le_refl 0)
  obtain ⟨n, hn, hstop⟩ : ∃ n, coil.matchAt "aabab".toText 42 5 0 = .ok (some n) ∧ n.stop = 5 :=
    ⟨_, rfl, rfl⟩
  have hresult : r = some n := Except.ok.inj ((hr 42 (by decide)).symm.trans hn)
  exact ⟨n, hstop, fun depth hdepth => hresult ▸ hr depth hdepth⟩

end Grammar

end Pegboard
