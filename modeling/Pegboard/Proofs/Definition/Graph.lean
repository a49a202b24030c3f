import Pegboard.Proofs.Definition.Assembly

/-!
# The shape of a linked graph

The graph of definitions is read off its blocks.  `Phrase.Stands` says what it means that
an expression of a store stands for a phrase: it has the form of the phrase, its members
stand for the members of the phrase, and in the place of a reference there is the rule of
that name.  Every rule of the graph stands for its definition.

Inside a block every slot holds a rule or an earlier expression of the block, and no
expression but a rule is held twice.  Only the last expression of a block has a name.
-/

namespace Pegboard

namespace Phrase

open Store

/-! ## What stands for a phrase -/

mutual

/-- What a slot holds stands for a phrase. -/
def Stands (store : Store) (rules : Rules) : Phrase → ExprId → Prop
  | literal text, e => ∃ name, store[e]? = some ⟨name, .literal text⟩
  | regex pattern, e => ∃ name, store[e]? = some ⟨name, .regex pattern⟩
  | reference target, e => rules.lookup target = some e
  | compound order members, e => ∃ name slots,
    store[e]? = some ⟨name, .compound order slots true⟩ ∧ StandAll store rules members slots
  | unary wrap member, e => ∃ name slot,
    store[e]? = some ⟨name, .unary wrap slot⟩ ∧ member.Stands store rules slot

/-- What slots hold stands for phrases, one by one. -/
def StandAll (store : Store) (rules : Rules) : List Phrase → List ExprId → Prop
  | [], slots => slots = []
  | p :: rest, slots => ∃ e others,
    slots = e :: others ∧ p.Stands store rules e ∧ StandAll store rules rest others

end

variable {store : Store} {link : Text → ExprId} {rules : Rules} {frozen : Bool}

mutual

/-- What a slot for a linked block holds stands for its phrase. -/
theorem stands_linked {name : Text} {place : Option Place} {base : ExprId} :
    ∀ {p : Phrase}, store.Holds base (p.cells (linked link) true name place base) →
      (∀ t ∈ p.targets, rules.lookup t = some (link t)) → p.Stands store rules (linked link base p)
  | literal _, h, _ => by
    simp only [cells] at h
    exact ⟨name, h.only⟩
  | regex _, h, _ => by
    simp only [cells] at h
    exact ⟨name, h.only⟩
  | reference target, _, htargets => htargets target (by simp [targets])
  | compound order members, h, htargets => by
    simp only [cells] at h
    simp only [targets] at htargets
    exact ⟨name, _, by simpa [linked, root, offset] using h.last, stand_entries h.left htargets⟩
  | unary wrap member, h, htargets => by
    simp only [cells] at h
    simp only [targets] at htargets
    exact ⟨name, _, by simpa [linked, root, offset] using h.last, stands_linked h.left htargets⟩

theorem stand_entries {seat : Nat → Option Place} {slot : Nat} {base : ExprId} :
    ∀ {ps : List Phrase}, store.Holds base (cellsAll (linked link) true seat slot base ps) →
      (∀ t ∈ targetsAll ps, rules.lookup t = some (link t)) →
      StandAll store rules ps (entries (linked link) base ps)
  | [], _, _ => rfl
  | p :: rest, h, htargets => by
    obtain ⟨hfirst, hrest⟩ := Holds.cellsAll_cons h
    simp only [targetsAll, List.mem_append] at htargets
    exact ⟨_, _, rfl, stands_linked hfirst fun t ht => htargets t (.inl ht),
      stand_entries hrest fun t ht => htargets t (.inr ht)⟩

end

/-! ## Names and members in a block -/

mutual

/-- Only the last expression of a block has a name. -/
theorem name_cells {entry : ExprId → Phrase → ExprId} {name : Text} {place : Option Place}
    {base : ExprId} : ∀ {p : Phrase} {k : Nat} {cell : Cell},
    (p.cells entry frozen name place base)[k]? = some cell →
    cell.name = [] ∨ k = p.offset ∧ cell.name = name
  | literal _, k, cell, hk => by
    obtain ⟨rfl, rfl⟩ := getElem?_singleton hk
    exact .inr ⟨rfl, rfl⟩
  | regex _, k, cell, hk => by
    obtain ⟨rfl, rfl⟩ := getElem?_singleton hk
    exact .inr ⟨rfl, rfl⟩
  | reference _, k, cell, hk => by
    obtain ⟨rfl, rfl⟩ := getElem?_singleton hk
    exact .inr ⟨rfl, rfl⟩
  | compound _ members, k, cell, hk => by
    simp only [cells] at hk
    rcases getElem?_append_cases hk with hk | ⟨j, rfl, hj⟩
    · exact .inl (name_cellsAll hk)
    · obtain ⟨rfl, rfl⟩ := getElem?_singleton hj
      exact .inr ⟨by simp [offset], rfl⟩
  | unary _ member, k, cell, hk => by
    simp only [cells] at hk
    rcases getElem?_append_cases hk with hk | ⟨j, rfl, hj⟩
    · rcases name_cells hk with hname | ⟨-, hname⟩ <;> exact .inl hname
    · obtain ⟨rfl, rfl⟩ := getElem?_singleton hj
      exact .inr ⟨by simp [offset], rfl⟩

theorem name_cellsAll {entry : ExprId → Phrase → ExprId} {seat : Nat → Option Place} {slot : Nat}
    {base : ExprId} : ∀ {ps : List Phrase} {k : Nat} {cell : Cell},
    (cellsAll entry frozen seat slot base ps)[k]? = some cell → cell.name = []
  | [], k, cell, hk => by simp [cellsAll] at hk
  | p :: rest, k, cell, hk => by
    simp only [cellsAll] at hk
    rcases getElem?_append_cases hk with hk | ⟨j, rfl, hj⟩
    · rcases name_cells hk with hname | ⟨-, hname⟩ <;> exact hname
    · exact name_cellsAll hj

end

/-- What is in a slot for a linked block is a rule or an expression of the block. -/
theorem linked_cases (p : Phrase) (base : Nat) :
    (∃ t ∈ p.targets, linked link base p = link t) ∨ linked link base p = base + p.offset := by
  cases p with
  | reference target => exact .inl ⟨target, by simp [targets], rfl⟩
  | _ => exact .inr rfl

theorem mem_entries {base : Nat} : ∀ {ps : List Phrase} {m : ExprId},
    m ∈ entries (linked link) base ps → (∃ t ∈ targetsAll ps, m = link t) ∨ m < base + sizeAll ps
  | [], m, hm => by simp [entries] at hm
  | p :: rest, m, hm => by
    simp only [entries, List.mem_cons] at hm
    simp only [targetsAll, List.mem_append, sizeAll]
    rcases hm with rfl | hm
    · rcases linked_cases p base with ⟨t, ht, heq⟩ | heq
      · exact .inl ⟨t, .inl ht, heq⟩
      · exact .inr (Nat.lt_of_le_of_lt (Nat.le_of_eq heq) (by omega))
    · rcases mem_entries hm with ⟨t, ht, heq⟩ | hlt
      · exact .inl ⟨t, .inr ht, heq⟩
      · exact .inr (Nat.lt_of_lt_of_eq hlt (by omega))

mutual

/-- Every slot of a linked block holds a rule or an earlier expression. -/
theorem members_cells {name : Text} {place : Option Place} {base : Nat} :
    ∀ {p : Phrase} {k : Nat} {cell : Cell},
    (p.cells (linked link) frozen name place base)[k]? = some cell → ∀ m ∈ cell.members,
    (∃ t ∈ p.targets, m = link t) ∨ m < base + k
  | literal _, k, cell, hk, m, hm => by
    obtain ⟨rfl, rfl⟩ := getElem?_singleton hk
    cases hm
  | regex _, k, cell, hk, m, hm => by
    obtain ⟨rfl, rfl⟩ := getElem?_singleton hk
    cases hm
  | reference _, k, cell, hk, m, hm => by
    obtain ⟨rfl, rfl⟩ := getElem?_singleton hk
    cases hm
  | compound _ members, k, cell, hk, m, hm => by
    simp only [cells] at hk
    simp only [targets]
    rcases getElem?_append_cases hk with hk | ⟨j, rfl, hj⟩
    · exact members_cellsAll hk m hm
    · obtain ⟨rfl, rfl⟩ := getElem?_singleton hj
      simpa using mem_entries hm
  | unary _ member, k, cell, hk, m, hm => by
    simp only [cells] at hk
    simp only [targets]
    rcases getElem?_append_cases hk with hk | ⟨j, rfl, hj⟩
    · exact members_cells hk m hm
    · obtain ⟨rfl, rfl⟩ := getElem?_singleton hj
      simp only [Cell.members, Form.members, List.mem_singleton] at hm
      subst hm
      rcases linked_cases member base with hlink | heq
      · exact .inl hlink
      · exact .inr (Nat.lt_of_le_of_lt (Nat.le_of_eq heq) (by rw [length_cells]; omega))

theorem members_cellsAll {seat : Nat → Option Place} {slot base : Nat} :
    ∀ {ps : List Phrase} {k : Nat} {cell : Cell},
    (cellsAll (linked link) frozen seat slot base ps)[k]? = some cell → ∀ m ∈ cell.members,
    (∃ t ∈ targetsAll ps, m = link t) ∨ m < base + k
  | [], k, cell, hk, m, hm => by simp [cellsAll] at hk
  | p :: rest, k, cell, hk, m, hm => by
    simp only [cellsAll] at hk
    simp only [targetsAll, List.mem_append]
    rcases getElem?_append_cases hk with hk | ⟨j, rfl, hj⟩
    · rcases members_cells hk m hm with ⟨t, ht, heq⟩ | hlt
      · exact .inl ⟨t, .inl ht, heq⟩
      · exact .inr hlt
    · rcases members_cellsAll hj m hm with ⟨t, ht, heq⟩ | hlt
      · exact .inl ⟨t, .inr ht, heq⟩
      · exact .inr (Nat.lt_of_lt_of_eq hlt (by rw [length_cells]; omega))

end

/-! ## How often an expression is held -/

/-- How many slots of the given cells hold an expression. -/
def heldIn (cells : List Cell) (e : ExprId) : Nat := (cells.flatMap Cell.members).count e

@[simp] theorem heldIn_append (xs ys : List Cell) (e : ExprId) :
    heldIn (xs ++ ys) e = heldIn xs e + heldIn ys e := by
  simp [heldIn]

theorem heldIn_singleton (cell : Cell) (e : ExprId) : heldIn [cell] e = cell.members.count e := by
  simp [heldIn]

/-- A held expression of a block is held once, by its parent or by the slot for the block. -/
theorem count_root {held base e n : Nat} (hheld : held ≤ 1) (hrange : 0 < held → base ≤ e ∧ e < base + n) :
    held + [base + n].count e ≤ 1 ∧ (0 < held + [base + n].count e → base ≤ e ∧ e ≤ base + n) := by
  rw [List.count_singleton]
  by_cases heq : base + n = e
  · have : held = 0 := by
      by_contra hpos
      have := hrange (by omega)
      omega
    simp [this, heq]
    omega
  · simp only [beq_iff_eq, heq, if_false, Nat.add_zero]
    exact ⟨hheld, fun hpos => ⟨(hrange hpos).1, by have := (hrange hpos).2; omega⟩⟩

mutual

/-- In a linked block and the slot for it, an expression that is no rule is held once at
most, and only if it is of the block. -/
theorem heldIn_cells (name : Text) (place : Option Place) (base : Nat) {e : Nat} :
    ∀ {p : Phrase}, (∀ t ∈ p.targets, link t ≠ e) →
      heldIn (p.cells (linked link) frozen name place base) e + [linked link base p].count e ≤ 1 ∧
      (0 < heldIn (p.cells (linked link) frozen name place base) e + [linked link base p].count e →
        base ≤ e ∧ e ≤ base + p.offset)
  | literal _, _ => by
    simp only [cells, heldIn_singleton, Cell.members, Form.members, List.count_nil]
    exact count_root (Nat.zero_le 1) fun hpos => absurd hpos (Nat.lt_irrefl 0)
  | regex _, _ => by
    simp only [cells, heldIn_singleton, Cell.members, Form.members, List.count_nil]
    exact count_root (Nat.zero_le 1) fun hpos => absurd hpos (Nat.lt_irrefl 0)
  | reference target, h => by
    have hne := h target (by simp [targets])
    simp [cells, heldIn_singleton, Cell.members, Form.members, linked, hne]
  | compound order members, h => by
    simp only [targets] at h
    simp only [cells, heldIn_append, heldIn_singleton, Cell.members, Form.members]
    obtain ⟨hheld, hrange⟩ := heldIn_cellsAll _ 0 base h
    exact count_root hheld hrange
  | unary wrap member, h => by
    simp only [targets] at h
    simp only [cells, heldIn_append, heldIn_singleton, Cell.members, Form.members]
    obtain ⟨hheld, hrange⟩ := heldIn_cells [] _ base h
    refine count_root hheld fun hpos => ⟨(hrange hpos).1, ?_⟩
    have := (hrange hpos).2
    simp only [offset]
    omega

/-- In linked blocks and the slots for them, an expression that is no rule is held once at
most. -/
theorem heldIn_cellsAll (seat : Nat → Option Place) (slot base : Nat) {e : Nat} :
    ∀ {ps : List Phrase}, (∀ t ∈ targetsAll ps, link t ≠ e) →
      heldIn (cellsAll (linked link) frozen seat slot base ps) e +
        (entries (linked link) base ps).count e ≤ 1 ∧
      (0 < heldIn (cellsAll (linked link) frozen seat slot base ps) e +
        (entries (linked link) base ps).count e → base ≤ e ∧ e < base + sizeAll ps)
  | [], _ => by simp [cellsAll, entries, heldIn]
  | p :: rest, h => by
    simp only [targetsAll, List.mem_append] at h
    obtain ⟨hfirst, hfirstRange⟩ := heldIn_cells [] (seat slot) base fun t ht => h t (.inl ht)
    obtain ⟨hrest, hrestRange⟩ := heldIn_cellsAll seat (slot + 1) (base + p.offset + 1) fun t ht =>
      h t (.inr ht)
    simp only [cellsAll, entries, heldIn_append, sizeAll, ← List.singleton_append (l := entries _ _ _),
      List.count_append]
    -- The two ranges are disjoint, so one of the counts is zero.
    omega

end

end Phrase

/-! ## Definitions -/

namespace Definition

open Store

variable {store : Store} {entry : ExprId → Phrase → ExprId} {link : Text → ExprId} {frozen : Bool}

/-- Every rule of linked definitions stands for its definition. -/
theorem stand_rulesFrom {rules : Rules} : ∀ {base : ExprId} {ds : List Definition},
    store.Holds base (cellsFrom (Phrase.linked link) true base ds) →
    (∀ t ∈ targets ds, rules.lookup t = some (link t)) →
    List.Forall₂ (fun d r => r.1 = d.label ∧ d.phrase.Stands store rules r.2) ds (rulesFrom base ds)
  | _, [], _, _ => .nil
  | base, d :: rest, h, htargets => by
    obtain ⟨hfirst, hrest⟩ := Holds.cellsFrom_cons h
    simp only [targets_cons, List.mem_append] at htargets
    have hstands := Phrase.stands_linked hfirst fun t ht => htargets t (.inl ht)
    rw [Phrase.linked_eq_root d.phrase_not_isReference] at hstands
    exact .cons ⟨rfl, hstands⟩ (stand_rulesFrom hrest fun t ht => htargets t (.inr ht))

/-- An expression that is no rule has no name. -/
theorem name_cellsFrom : ∀ {base : Nat} {ds : List Definition} {k : Nat} {cell : Cell},
    (cellsFrom entry frozen base ds)[k]? = some cell →
    base + k ∉ (rulesFrom base ds).map (·.2) → cell.name = []
  | _, [], k, cell, hk, _ => by simp [cellsFrom] at hk
  | base, d :: rest, k, cell, hk, hrules => by
    simp only [cellsFrom] at hk
    simp only [rulesFrom, List.map_cons, List.mem_cons, not_or] at hrules
    rcases getElem?_append_cases hk with hk | ⟨j, rfl, hj⟩
    · rcases Phrase.name_cells hk with hname | ⟨rfl, -⟩
      · exact hname
      · exact absurd rfl hrules.1
    · refine name_cellsFrom hj fun hmem => hrules.2 ?_
      rwa [Phrase.length_cells, ← Nat.add_assoc, ← Nat.add_assoc]

/-- Every slot of linked definitions holds a rule or an earlier expression. -/
theorem members_cellsFrom : ∀ {base : Nat} {ds : List Definition} {k : Nat} {cell : Cell},
    (cellsFrom (Phrase.linked link) frozen base ds)[k]? = some cell → ∀ m ∈ cell.members,
    (∃ t ∈ targets ds, m = link t) ∨ m < base + k
  | _, [], k, cell, hk, m, hm => by simp [cellsFrom] at hk
  | base, d :: rest, k, cell, hk, m, hm => by
    simp only [cellsFrom] at hk
    simp only [targets_cons, List.mem_append]
    rcases getElem?_append_cases hk with hk | ⟨j, rfl, hj⟩
    · rcases Phrase.members_cells hk m hm with ⟨t, ht, heq⟩ | hlt
      · exact .inl ⟨t, .inl ht, heq⟩
      · exact .inr hlt
    · rcases members_cellsFrom hj m hm with ⟨t, ht, heq⟩ | hlt
      · exact .inl ⟨t, .inr ht, heq⟩
      · exact .inr (Nat.lt_of_lt_of_eq hlt (by rw [Phrase.length_cells]; omega))

/-- In linked definitions an expression that is no rule is held once at most. -/
theorem heldIn_cellsFrom (base : Nat) {e : Nat} : ∀ {ds : List Definition},
    (∀ t ∈ targets ds, link t ≠ e) →
    Phrase.heldIn (cellsFrom (Phrase.linked link) frozen base ds) e ≤ 1 ∧
    (0 < Phrase.heldIn (cellsFrom (Phrase.linked link) frozen base ds) e → base ≤ e)
  | [], _ => by simp [cellsFrom, Phrase.heldIn]
  | d :: rest, h => by
    simp only [targets_cons, List.mem_append] at h
    have hfirst := @Phrase.heldIn_cells link frozen d.label none base e d.phrase fun t ht =>
      h t (.inl ht)
    have hrest := heldIn_cellsFrom (base + d.phrase.offset + 1) fun t ht => h t (.inr ht)
    simp only [cellsFrom, Phrase.heldIn_append]
    omega

end Definition

end Pegboard
