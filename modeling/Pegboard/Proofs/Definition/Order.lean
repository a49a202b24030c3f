import Pegboard.Proofs.Definition.Linked
import Pegboard.Proofs.Definition.Rendering
import Pegboard.Proofs.Match.Bisimulation

/-!
# The order of definitions

The graphs of the same definitions in another order differ in the numbers of their
expressions and in nothing else.  `Definition.locate` says to which definition an expression
belongs, and which expression of its block it is.  Expressions of two graphs at the same
place of the same definition are twins.  Twins have the same name and form and their members
are twins again (`bisimulation_twin`), every expression has one twin at most, and the rules
of one name are twins.  The second graph can be that of more definitions.
-/

namespace Pegboard

namespace Phrase

/-! ## Two blocks of one phrase -/

/-- The finished expressions of a block are related to those at the same places of another
one. -/
def Paired (R : ExprId → ExprId → Prop) (cells : List Cell) (base base' : ExprId) : Prop :=
  ∀ (k : Nat) (cell : Cell), cells[k]? = some cell → cell.form.Finished → R (base + k) (base' + k)

section

variable {R : ExprId → ExprId → Prop} {link link' : Text → ExprId} {xs ys : List Cell}
  {base base' : ExprId}

theorem Paired.left (h : Paired R (xs ++ ys) base base') : Paired R xs base base' := by
  intro k cell hk
  have hlt : k < xs.length := (List.getElem?_eq_some_iff.1 hk).1
  exact h k cell (by rw [List.getElem?_append_left hlt, hk])

theorem Paired.right (h : Paired R (xs ++ ys) base base') :
    Paired R ys (base + xs.length) (base' + xs.length) := by
  intro k cell hk
  rw [Nat.add_assoc, Nat.add_assoc]
  exact h (xs.length + k) cell (by rw [List.getElem?_append_right (by omega)]; simpa using hk)

/-- The block of a member among the others. -/
theorem Paired.cellsAll_cons {seat : Nat → Option Place} {slot : Nat} {p : Phrase} {rest : List Phrase}
    (h : Paired R (cellsAll (linked link) true seat slot base (p :: rest)) base base') :
    Paired R (p.cells (linked link) true [] (seat slot) base) base base' ∧
      Paired R (cellsAll (linked link) true seat (slot + 1) (base + p.offset + 1) rest)
        (base + p.offset + 1) (base' + p.offset + 1) := by
  simp only [cellsAll] at h
  have hrest := h.right
  rw [length_cells, ← Nat.add_assoc, ← Nat.add_assoc] at hrest
  exact ⟨h.left, hrest⟩

/-- What the slots for a phrase hold is related. -/
theorem related_linked {p : Phrase} {name : Text} {place : Option Place}
    (hlink : ∀ t ∈ p.targets, R (link t) (link' t))
    (h : Paired R (p.cells (linked link) true name place base) base base') :
    R (linked link base p) (linked link' base' p) := by
  by_cases href : p.IsReference
  · cases p with
    | reference target => exact hlink target (List.mem_singleton.2 rfl)
    | _ => exact href.elim
  · obtain ⟨front, cell, hcells, hfront, -, hform⟩ :=
      cells_root (linked link) true href name place base
    rw [linked_eq_root href, linked_eq_root href]
    refine h p.offset cell ?_ hform
    rw [hcells, ← hfront]
    exact List.getElem?_concat_length

theorem related_entries {seat : Nat → Option Place} : ∀ {ps : List Phrase} {slot : Nat}
    {base base' : ExprId}, (∀ t ∈ targetsAll ps, R (link t) (link' t)) →
    Paired R (cellsAll (linked link) true seat slot base ps) base base' →
    List.Forall₂ R (entries (linked link) base ps) (entries (linked link') base' ps)
  | [], _, _, _, _, _ => .nil
  | p :: rest, slot, base, base', hlink, h => by
    simp only [targetsAll, List.mem_append] at hlink
    obtain ⟨hfirst, hrest⟩ := h.cellsAll_cons
    exact .cons (related_linked (fun t ht => hlink t (.inl ht)) hfirst)
      (related_entries (fun t ht => hlink t (.inr ht)) hrest)

end

/-- A cell has a counterpart of the same name and an alike form. -/
def Matched (R : ExprId → ExprId → Prop) (cell : Cell) (counterpart : Option Cell) : Prop :=
  ∃ cell', counterpart = some cell' ∧ cell.name = cell'.name ∧ Form.Alike R cell.form cell'.form

theorem Matched.mk {R : ExprId → ExprId → Prop} {name : Text} {form form' : Form}
    (h : Form.Alike R form form') : Matched R ⟨name, form⟩ (some ⟨name, form'⟩) :=
  ⟨_, rfl, rfl, h⟩

section

variable {R : ExprId → ExprId → Prop} {link link' : Text → ExprId}

mutual

/-- The finished cells of a block match those at the same places of another block of the
phrase. -/
theorem matched_cells {name : Text} {place place' : Option Place} {base base' : ExprId} :
    ∀ {p : Phrase}, (∀ t ∈ p.targets, R (link t) (link' t)) →
    Paired R (p.cells (linked link) true name place base) base base' →
    ∀ {k : Nat} {cell : Cell}, (p.cells (linked link) true name place base)[k]? = some cell →
    cell.form.Finished → Matched R cell (p.cells (linked link') true name place' base')[k]?
  | literal text, _, _, k, cell, hk, _ => by
    obtain ⟨rfl, rfl⟩ := getElem?_singleton hk
    exact .mk (.literal text)
  | regex pattern, _, _, k, cell, hk, _ => by
    obtain ⟨rfl, rfl⟩ := getElem?_singleton hk
    exact .mk (.regex pattern)
  | reference target, _, _, k, cell, hk, hform => by
    obtain ⟨rfl, rfl⟩ := getElem?_singleton hk
    exact hform.elim
  | compound order members, hlink, h, k, cell, hk, hform => by
    simp only [cells] at h hk ⊢
    simp only [targets] at hlink
    rcases getElem?_append_cases hk with hk | ⟨j, rfl, hj⟩
    · have hlt : k < sizeAll members := by
        have := (List.getElem?_eq_some_iff.1 hk).1
        rwa [length_cellsAll] at this
      rw [List.getElem?_append_left (by rwa [length_cellsAll])]
      exact matched_cellsAll hlink h.left hk hform
    · obtain ⟨rfl, rfl⟩ := getElem?_singleton hj
      rw [length_cellsAll, List.getElem?_append_right (by simp), length_cellsAll, Nat.add_zero,
        Nat.sub_self]
      exact .mk (.compound order true true (related_entries hlink h.left))
  | unary wrap member, hlink, h, k, cell, hk, hform => by
    simp only [cells] at h hk ⊢
    simp only [targets] at hlink
    rcases getElem?_append_cases hk with hk | ⟨j, rfl, hj⟩
    · have hlt : k < member.offset + 1 := by
        have := (List.getElem?_eq_some_iff.1 hk).1
        rwa [length_cells] at this
      rw [List.getElem?_append_left (by rwa [length_cells])]
      exact matched_cells hlink h.left hk hform
    · obtain ⟨rfl, rfl⟩ := getElem?_singleton hj
      rw [length_cells, List.getElem?_append_right (by simp), length_cells, Nat.add_zero,
        Nat.sub_self]
      exact .mk (.unary wrap (related_linked hlink h.left))

theorem matched_cellsAll {seat seat' : Nat → Option Place} {slot slot' : Nat} {base base' : ExprId} :
    ∀ {ps : List Phrase}, (∀ t ∈ targetsAll ps, R (link t) (link' t)) →
    Paired R (cellsAll (linked link) true seat slot base ps) base base' →
    ∀ {k : Nat} {cell : Cell}, (cellsAll (linked link) true seat slot base ps)[k]? = some cell →
    cell.form.Finished → Matched R cell (cellsAll (linked link') true seat' slot' base' ps)[k]?
  | [], _, _, k, cell, hk, _ => by simp [cellsAll] at hk
  | p :: rest, hlink, h, k, cell, hk, hform => by
    obtain ⟨hfirst, hrest⟩ := h.cellsAll_cons
    simp only [cellsAll] at hk ⊢
    simp only [targetsAll, List.mem_append] at hlink
    rcases getElem?_append_cases hk with hk | ⟨j, rfl, hj⟩
    · have hlt : k < p.offset + 1 := by
        have := (List.getElem?_eq_some_iff.1 hk).1
        rwa [length_cells] at this
      rw [List.getElem?_append_left (by rwa [length_cells])]
      exact matched_cells (fun t ht => hlink t (.inl ht)) hfirst hk hform
    · rw [length_cells, List.getElem?_append_right (by rw [length_cells]; omega), length_cells,
        Nat.add_sub_cancel_left]
      exact matched_cellsAll (fun t ht => hlink t (.inr ht)) hrest hj hform

end

end

end Phrase

namespace Definition

open Store

/-! ## Where an expression belongs -/

theorem mem_of_locate : ∀ {ds : List Definition} {e : Nat} {d : Definition} {k : Nat},
    locate ds e = some (d, k) → d ∈ ds ∧ k ≤ d.phrase.offset
  | [], _, _, _, h => by cases h
  | d' :: rest, e, d, k, h => by
    rw [locate] at h
    split at h
    · next hle =>
      cases h
      exact ⟨List.mem_cons_self, hle⟩
    · obtain ⟨hmem, hle⟩ := mem_of_locate h
      exact ⟨List.mem_cons_of_mem d' hmem, hle⟩

/-- No two expressions are at the same place of the same definition. -/
theorem locate_injective : ∀ {ds : List Definition}, (ds.map label).Nodup → ∀ {e e' : Nat}
    {x : Definition × Nat}, locate ds e = some x → locate ds e' = some x → e = e'
  | [], _, _, _, _, h, _ => by cases h
  | d :: rest, hlabels, e, e', x, h, h' => by
    rw [List.map_cons, List.nodup_cons] at hlabels
    have hother : ∀ {e k}, locate rest e ≠ some (d, k) := fun heq =>
      hlabels.1 (List.mem_map_of_mem (mem_of_locate heq).1)
    rw [locate] at h h'
    split at h <;> split at h'
    · cases h
      cases h'
      rfl
    · cases h
      exact absurd h' hother
    · cases h'
      exact absurd h hother
    · have heq := locate_injective hlabels.2 h h'
      omega

variable {ds ds' : List Definition}

/-! ## Twins -/

/-- Two finished expressions are at the same place of the same definition. -/
def Twin (ds ds' : List Definition) (e e' : ExprId) : Prop :=
  (graph ds).Solid e ∧ ∃ x, locate ds e = some x ∧ locate ds' e' = some x

theorem Twin.functional (hlabels' : (ds'.map label).Nodup) {e e₁ e₂ : ExprId} (h₁ : Twin ds ds' e e₁)
    (h₂ : Twin ds ds' e e₂) : e₁ = e₂ := by
  obtain ⟨-, x, he₁, hx₁⟩ := h₁
  obtain ⟨-, y, he₂, hx₂⟩ := h₂
  obtain rfl : x = y := Option.some.inj (he₁.symm.trans he₂)
  exact locate_injective hlabels' hx₁ hx₂

theorem Twin.injective (hlabels : (ds.map label).Nodup) {e₁ e₂ e' : ExprId} (h₁ : Twin ds ds' e₁ e')
    (h₂ : Twin ds ds' e₂ e') : e₁ = e₂ := by
  obtain ⟨-, x, he₁, hx₁⟩ := h₁
  obtain ⟨-, y, he₂, hx₂⟩ := h₂
  obtain rfl : x = y := Option.some.inj (hx₁.symm.trans hx₂)
  exact locate_injective hlabels he₁ he₂

section

variable (hlabels : (ds.map label).Nodup) (hlabels' : (ds'.map label).Nodup)
  (hsub : ∀ d ∈ ds, d ∈ ds')
include hlabels hlabels' hsub

/-- The rules of a name are twins. -/
theorem twin_ruleOf {name : Text} (hname : name ∈ ds.map label) :
    Twin ds ds' (ruleOf ds name) (ruleOf ds' name) := by
  obtain ⟨d, hd, rfl⟩ := List.mem_map.1 hname
  obtain ⟨b, -, hrule, hlocate⟩ := exists_block_graph hlabels hd
  obtain ⟨b', -, hrule', hlocate'⟩ := exists_block_graph hlabels' (hsub d hd)
  refine ⟨solid_ruleOf hname, (d, d.phrase.offset), ?_, ?_⟩
  · rw [hrule, Phrase.root, hlocate _ (Nat.le_refl _)]
  · rw [hrule', Phrase.root, hlocate' _ (Nat.le_refl _)]

/-- Twins have the same name and form, and their members are twins. -/
theorem bisimulation_twin (h : Complete ds) : Bisimulation (graph ds) (graph ds') (Twin ds ds') := by
  rintro e e' ⟨⟨cell, hcell, hform⟩, ⟨d, k⟩, he, he'⟩
  obtain ⟨hd, hk⟩ := mem_of_locate he
  obtain ⟨b, hblock, -, hlocate⟩ := exists_block_graph hlabels hd
  obtain ⟨b', hblock', -, hlocate'⟩ := exists_block_graph hlabels' (hsub d hd)
  obtain rfl : e = b + k := locate_injective hlabels he (hlocate k hk)
  obtain rfl : e' = b' + k := locate_injective hlabels' he' (hlocate' k hk)
  have hget : ∀ {j : Nat}, j ≤ d.phrase.offset → ∃ c,
      (d.phrase.cells (Phrase.linked (ruleOf ds)) true d.label none b)[j]? = some c := by
    intro j hj
    exact ⟨_, List.getElem?_eq_getElem (by rw [Phrase.length_cells]; omega)⟩
  obtain ⟨c, hc⟩ := hget hk
  obtain rfl : cell = c := Option.some.inj (hcell.symm.trans (hblock k c hc))
  have htargets : ∀ t ∈ d.phrase.targets, Twin ds ds' (ruleOf ds t) (ruleOf ds' t) := by
    intro t ht
    rw [phrase, Phrase.targets_wrapped] at ht
    exact twin_ruleOf hlabels hlabels' hsub (h t (List.mem_flatMap.2 ⟨d, hd, ht⟩))
  have hpaired : Phrase.Paired (Twin ds ds')
      (d.phrase.cells (Phrase.linked (ruleOf ds)) true d.label none b) b b' := by
    intro j c hj hc
    have hle : j ≤ d.phrase.offset := by
      have := (List.getElem?_eq_some_iff.1 hj).1
      rw [Phrase.length_cells] at this
      omega
    exact ⟨⟨c, hblock j c hj, hc⟩, (d, j), hlocate j hle, hlocate' j hle⟩
  obtain ⟨cell', hcell', hname, halike⟩ := Phrase.matched_cells htargets hpaired hc hform
  exact ⟨cell, cell', hcell, hblock' k cell' hcell', hname, halike⟩

end

end Definition

end Pegboard
