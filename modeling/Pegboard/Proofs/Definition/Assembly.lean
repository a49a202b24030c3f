import Pegboard.Proofs.Definition.Block

/-!
# The graph of definitions

`Definition.assemble` builds the blocks of definitions, links the references and freezes
the graph.  The result has a closed form: the same blocks, where every slot with a
reference holds the rule that it names and every member list is frozen
(`assemble_runOn`).  It is reached exactly when every reference names a definition; else
the first one that does not is reported (`assemble_runOn_missing`).

The argument follows the three stages.  A reference that was built is seated, so linking
writes its slot and no other.  After that no slot holds a reference, so freezing meets
none, and everything but the replaced references can be reached, so all member lists get
frozen.
-/

namespace Pegboard

/-! ## Cells in a store -/

theorem getElem?_append_cases {α : Type} {xs ys : List α} {k : Nat} {x : α}
    (h : (xs ++ ys)[k]? = some x) :
    xs[k]? = some x ∨ ∃ j, k = xs.length + j ∧ ys[j]? = some x := by
  rw [List.getElem?_append] at h
  split at h
  · exact .inl h
  · exact .inr ⟨k - xs.length, by omega, h⟩

theorem getElem?_singleton {α : Type} {x y : α} {k : Nat} (h : [x][k]? = some y) : k = 0 ∧ y = x := by
  cases k with
  | zero => exact ⟨rfl, (Option.some.inj h).symm⟩
  | succ k => cases h

namespace Store

/-- The store has the given cells from an offset on. -/
def Holds (store : Store) (base : ExprId) (cells : List Cell) : Prop :=
  ∀ (k : Nat) (cell : Cell), cells[k]? = some cell → store[base + k]? = some cell

variable {store : Store} {base : ExprId} {xs ys : List Cell}

theorem Holds.left (h : store.Holds base (xs ++ ys)) : store.Holds base xs := by
  intro k cell hk
  have hlt : k < xs.length := (List.getElem?_eq_some_iff.1 hk).1
  exact h k cell (by rw [List.getElem?_append_left hlt]; exact hk)

theorem Holds.right (h : store.Holds base (xs ++ ys)) : store.Holds (base + xs.length) ys := by
  intro k cell hk
  rw [Nat.add_assoc]
  exact h (xs.length + k) cell (by rw [List.getElem?_append_right (by omega)]; simpa using hk)

theorem Holds.last {cell : Cell} (h : store.Holds base (xs ++ [cell])) :
    store[base + xs.length]? = some cell := h.right 0 cell rfl

theorem Holds.only {cell : Cell} (h : store.Holds base [cell]) : store[base]? = some cell :=
  h 0 cell rfl

theorem holds_append (before cells after : List Cell) :
    Store.Holds (before ++ cells ++ after).toArray before.length cells := by
  intro k cell hk
  have hlt : k < cells.length := (List.getElem?_eq_some_iff.1 hk).1
  rw [List.getElem?_toArray, List.append_assoc, List.getElem?_append_right (by omega),
    Nat.add_sub_cancel_left, List.getElem?_append_left hlt, hk]

/-- An expression of the store that is finished. -/
def Solid (store : Store) (e : ExprId) : Prop := ∃ cell, store[e]? = some cell ∧ cell.form.Finished

theorem Solid.targetOf? {e : ExprId} (h : store.Solid e) : store.targetOf? e = none := by
  obtain ⟨cell, hcell, hform⟩ := h
  rw [Store.targetOf?, hcell, Option.bind_some, Cell.target?_of_finished hform]

/-! ## Seats of the references in a block -/

theorem seat?_compound {e q : ExprId} {i : Nat} {name name' target : Text} {order : Order}
    {members : List ExprId} (he : store[e]? = some ⟨name, .reference target (some ⟨q, some i⟩)⟩)
    (hq : store[q]? = some ⟨name', .compound order members false⟩) (hi : i < members.length) :
    store.seat? e = some (q, i) := by
  have hslot : Build.slotIndex? members.length (i : Int) = some i := by
    have hneg : ¬ (i : Int) < 0 := by omega
    simp only [Build.slotIndex?, if_neg hneg]
    rw [if_pos (by omega), Int.toNat_natCast]
  simp [seat?, he, hq, hslot]

theorem seat?_unary {e q m : ExprId} {name name' target : Text} {wrap : Wrap}
    (he : store[e]? = some ⟨name, .reference target (some ⟨q, none⟩)⟩)
    (hq : store[q]? = some ⟨name', .unary wrap m⟩) : store.seat? e = some (q, 0) := by
  simp [seat?, he, hq]

end Store

namespace Phrase

open Store

variable {store : Store}

@[simp] theorem length_entries {entry : ExprId → Phrase → ExprId} : ∀ (base : ExprId) (ps : List Phrase),
    (entries entry base ps).length = ps.length
  | _, [] => rfl
  | base, p :: rest => by simp [entries, length_entries _ rest]

/-- The block of the first of several phrases, and the blocks of the others. -/
theorem Holds.cellsAll_cons {entry : ExprId → Phrase → ExprId} {frozen : Bool}
    {seat : Nat → Option Place} {slot base : Nat} {p : Phrase} {rest : List Phrase}
    (h : store.Holds base (cellsAll entry frozen seat slot base (p :: rest))) :
    store.Holds base (p.cells entry frozen [] (seat slot) base) ∧
      store.Holds (base + p.offset + 1)
        (cellsAll entry frozen seat (slot + 1) (base + p.offset + 1) rest) := by
  simp only [cellsAll] at h
  have hrest := h.right
  rw [length_cells, ← Nat.add_assoc] at hrest
  exact ⟨h.left, hrest⟩

/-- The block of a reference in a slot of a sequence or choice. -/
theorem seat?_reference {name : Text} {order : Order} {q : ExprId} {done : List ExprId}
    {target : Text} {base : ExprId} {rest : List Phrase} {entry : ExprId → Phrase → ExprId}
    {frozen : Bool}
    (hq : store[q]? =
      some ⟨name, .compound order (done ++ entries root base (reference target :: rest)) false⟩)
    (h : store.Holds base ((reference target).cells entry frozen [] (some ⟨q, some done.length⟩) base)) :
    store.seat? base = some (q, done.length) ∧ store.targetOf? base = some target := by
  simp only [cells] at h
  exact ⟨seat?_compound h.only hq (by simp), by simp [targetOf?, h.only, Cell.target?]⟩

mutual

/-- The references of a block that is no reference itself are seated. -/
theorem seated_of_mem_pendings {name : Text} {place : Option Place} {base : ExprId} :
    ∀ {p : Phrase}, ¬ p.IsReference → store.Holds base (p.cells root false name place base) →
      ∀ e ∈ p.pendings base, store.Seated e
  | literal _, _, _ => by simp [pendings]
  | regex _, _, _ => by simp [pendings]
  | reference _, href, _ => absurd trivial href
  | compound order members, _, h => by
    simp only [cells] at h
    have hq : store[base + sizeAll members]? =
        some ⟨name, .compound order ([] ++ entries root base members) false⟩ := by
      simpa using h.last
    simp only [pendings]
    exact seated_of_mem_pendingsAll hq h.left
  | unary wrap member, _, h => by
    simp only [cells] at h
    have hq : store[base + (member.offset + 1)]? = some ⟨name, .unary wrap (member.root base)⟩ := by
      simpa using h.last
    intro e he
    simp only [pendings] at he
    by_cases href : member.IsReference
    · cases member with
      | reference target =>
        have hcell := h.left
        simp only [cells, pendings, List.mem_singleton] at hcell he
        subst he
        exact ⟨_, 0, seat?_unary hcell.only hq, by rw [membersOf_eq hq]; rfl⟩
      | _ => exact absurd href id
    · exact seated_of_mem_pendings href h.left e he

theorem seated_of_mem_pendingsAll {name : Text} {order : Order} {q : ExprId} :
    ∀ {ps : List Phrase} {done : List ExprId} {base : ExprId},
      store[q]? = some ⟨name, .compound order (done ++ entries root base ps) false⟩ →
      store.Holds base (cellsAll root false (fun i => some ⟨q, some i⟩) done.length base ps) →
      ∀ e ∈ pendingsAll base ps, store.Seated e
  | [], _, _, _, _ => by simp [pendingsAll]
  | p :: rest, done, base, hq, h => by
    obtain ⟨hfirst, hrest⟩ := Holds.cellsAll_cons h
    intro e he
    simp only [pendingsAll, List.mem_append] at he
    rcases he with he | he
    · by_cases href : p.IsReference
      · cases p with
        | reference target =>
          simp only [pendings, List.mem_singleton] at he
          subst he
          refine ⟨q, done.length, (seat?_reference hq hfirst).1, ?_⟩
          rw [membersOf_eq hq]
          simp [Cell.members, Form.members, entries, root, offset]
        | _ => exact absurd href id
      · exact seated_of_mem_pendings href hfirst e he
    · have hq' : store[q]? = some ⟨name, .compound order
          ((done ++ [p.root base]) ++ entries root (base + p.offset + 1) rest) false⟩ := by
        simpa [entries] using hq
      exact seated_of_mem_pendingsAll hq' (by simpa using hrest) e he

end

theorem linked_eq_root {p : Phrase} (href : ¬ p.IsReference) (link : Text → ExprId) (base : ExprId) :
    linked link base p = p.root base := by
  cases p with
  | reference target => exact absurd trivial href
  | _ => rfl

/-- The last expression of a block has the block's name, and is finished unless the phrase
is a reference. -/
theorem exists_root {entry : ExprId → Phrase → ExprId} {frozen : Bool} {name : Text}
    {place : Option Place} {base : ExprId} {p : Phrase} (href : ¬ p.IsReference)
    (h : store.Holds base (p.cells entry frozen name place base)) :
    ∃ cell, store[p.root base]? = some cell ∧ cell.name = name ∧ cell.form.Finished := by
  obtain ⟨front, cell, hcells, hfront, hname, hform⟩ := cells_root entry frozen href name place base
  rw [hcells] at h
  exact ⟨cell, by rw [root, ← hfront]; exact h.last, hname, hform⟩

/-! ## Linking a block -/

section Linking

variable {rules : Rules} {pending : List ExprId} {link : Text → ExprId}

/-- Cells from an offset on, with their slots as linking leaves them. -/
def relink (store : Store) (rules : Rules) (pending : List ExprId) (base : ExprId)
    (cells : List Cell) : List Cell :=
  cells.mapIdx fun k cell => cell.mapSlots (store.linkedSlot rules pending (base + k))

theorem relink_append (base : ExprId) (xs ys : List Cell) :
    relink store rules pending base (xs ++ ys) =
      relink store rules pending base xs ++ relink store rules pending (base + xs.length) ys := by
  simp only [relink, List.mapIdx_append]
  congr 1
  simp only [Nat.add_assoc, Nat.add_comm xs.length]

/-- A slot with a pending reference is linked to the rule. -/
theorem linkedSlot_reference {e q : ExprId} {i : Nat} {target : Text} (hmem : e ∈ pending)
    (hseat : store.seat? e = some (q, i)) (htarget : store.targetOf? e = some target)
    (hlink : rules.lookup target = some (link target)) :
    store.linkedSlot rules pending q i e = link target := by
  simp [linkedSlot, hmem, hseat, ruleFor, htarget, hlink]

/-- A slot with anything else keeps it. -/
theorem linkedSlot_other (hpending : ∀ e ∈ pending, store.targetOf? e ≠ none) {m : ExprId}
    (hm : store.targetOf? m = none) (q : ExprId) (i : Nat) :
    store.linkedSlot rules pending q i m = m :=
  if_neg fun h => hpending m h.1 hm

theorem linkedSlot_root (hpending : ∀ e ∈ pending, store.targetOf? e ≠ none) {p : Phrase}
    (href : ¬ p.IsReference) {name : Text} {place : Option Place} {base : ExprId}
    (h : store.Holds base (p.cells root false name place base)) (q : ExprId) (i : Nat) :
    store.linkedSlot rules pending q i (p.root base) = linked link base p := by
  obtain ⟨cell, hcell, -, hform⟩ := exists_root href h
  rw [linkedSlot_other hpending (Solid.targetOf? ⟨cell, hcell, hform⟩), linked_eq_root href]

theorem mapIdx_entries (hpending : ∀ e ∈ pending, store.targetOf? e ≠ none) {name : Text}
    {order : Order} {q : ExprId} :
    ∀ {ps : List Phrase} {done : List ExprId} {base : ExprId},
      store[q]? = some ⟨name, .compound order (done ++ entries root base ps) false⟩ →
      store.Holds base (cellsAll root false (fun i => some ⟨q, some i⟩) done.length base ps) →
      (∀ e ∈ pendingsAll base ps, e ∈ pending) →
      (∀ t ∈ targetsAll ps, rules.lookup t = some (link t)) →
      (entries root base ps).mapIdx (fun i m => store.linkedSlot rules pending q (i + done.length) m) =
        entries (linked link) base ps
  | [], _, _, _, _, _, _ => rfl
  | p :: rest, done, base, hq, h, hsub, htargets => by
    obtain ⟨hblock, hrest⟩ := Holds.cellsAll_cons h
    simp only [pendingsAll, List.mem_append] at hsub
    simp only [targetsAll, List.mem_append] at htargets
    have hfirst : store.linkedSlot rules pending q done.length (p.root base) = linked link base p := by
      by_cases href : p.IsReference
      · cases p with
        | reference target =>
          have hseat := seat?_reference hq hblock
          exact linkedSlot_reference (hsub _ (.inl (by simp [pendings, root, offset]))) hseat.1 hseat.2
            (htargets _ (.inl (by simp [targets])))
        | _ => exact absurd href id
      · exact linkedSlot_root hpending href hblock q done.length
    have hq' : store[q]? = some ⟨name, .compound order
        ((done ++ [p.root base]) ++ entries root (base + p.offset + 1) rest) false⟩ := by
      simpa [entries] using hq
    have ih := mapIdx_entries hpending hq' (by simpa using hrest)
      (fun e he => hsub e (.inr he)) fun t ht => htargets t (.inr ht)
    simp only [entries, List.mapIdx_cons, Nat.zero_add, hfirst]
    rw [← ih]
    simp only [List.length_append, List.length_singleton, Nat.add_assoc, Nat.add_comm 1]

mutual

/-- Linking a block puts rules into the slots with references. -/
theorem relink_cells (hpending : ∀ e ∈ pending, store.targetOf? e ≠ none) {name : Text}
    {place : Option Place} {base : ExprId} :
    ∀ {p : Phrase}, store.Holds base (p.cells root false name place base) →
      (∀ e ∈ p.pendings base, e ∈ pending) →
      (∀ t ∈ p.targets, rules.lookup t = some (link t)) →
      relink store rules pending base (p.cells root false name place base) =
        p.cells (linked link) false name place base
  | literal _, _, _, _ => by simp [cells, relink, Cell.mapSlots, Form.mapSlots]
  | regex _, _, _, _ => by simp [cells, relink, Cell.mapSlots, Form.mapSlots]
  | reference _, _, _, _ => by simp [cells, relink, Cell.mapSlots, Form.mapSlots]
  | compound order members, h, hsub, htargets => by
    simp only [cells] at h
    simp only [pendings] at hsub
    simp only [targets] at htargets
    have hq : store[base + sizeAll members]? =
        some ⟨name, .compound order ([] ++ entries root base members) false⟩ := by
      simpa using h.last
    have hlast := mapIdx_entries hpending hq h.left hsub htargets
    simp only [List.length_nil, Nat.add_zero] at hlast
    simp only [cells, relink_append, length_cellsAll]
    rw [relink_cellsAll hpending h.left hsub htargets]
    simp [relink, Cell.mapSlots, Form.mapSlots, hlast]
  | unary wrap member, h, hsub, htargets => by
    simp only [cells] at h
    simp only [pendings] at hsub
    simp only [targets] at htargets
    have hq : store[base + (member.offset + 1)]? = some ⟨name, .unary wrap (member.root base)⟩ := by
      simpa using h.last
    have hslot : store.linkedSlot rules pending (base + (member.offset + 1)) 0 (member.root base) =
        linked link base member := by
      by_cases href : member.IsReference
      · cases member with
        | reference target =>
          have hcell := h.left
          simp only [cells] at hcell
          exact linkedSlot_reference (hsub _ (by simp [pendings, root, offset]))
            (seat?_unary hcell.only hq) (by simp [targetOf?, root, offset, hcell.only, Cell.target?])
            (htargets _ (by simp [targets]))
        | _ => exact absurd href id
      · exact linkedSlot_root hpending href h.left _ 0
    simp only [cells, relink_append, length_cells]
    rw [relink_cells hpending h.left hsub htargets]
    simp [relink, Cell.mapSlots, Form.mapSlots, hslot]

theorem relink_cellsAll (hpending : ∀ e ∈ pending, store.targetOf? e ≠ none)
    {seat : Nat → Option Place} {slot : Nat} {base : ExprId} :
    ∀ {ps : List Phrase}, store.Holds base (cellsAll root false seat slot base ps) →
      (∀ e ∈ pendingsAll base ps, e ∈ pending) →
      (∀ t ∈ targetsAll ps, rules.lookup t = some (link t)) →
      relink store rules pending base (cellsAll root false seat slot base ps) =
        cellsAll (linked link) false seat slot base ps
  | [], _, _, _ => by simp [cellsAll, relink]
  | p :: rest, h, hsub, htargets => by
    obtain ⟨hfirst, hrest⟩ := Holds.cellsAll_cons h
    simp only [pendingsAll, List.mem_append] at hsub
    simp only [targetsAll, List.mem_append] at htargets
    simp only [cellsAll, relink_append, length_cells]
    rw [relink_cells hpending hfirst (fun e he => hsub e (.inl he)) fun t ht => htargets t (.inl ht),
      ← Nat.add_assoc,
      relink_cellsAll hpending hrest (fun e he => hsub e (.inr he)) fun t ht => htargets t (.inr ht)]

end

end Linking

/-! ## The references of a block -/

mutual

/-- The references in a block are expressions of the block. -/
theorem mem_pendings {base : Nat} : ∀ {p : Phrase} {e : Nat}, e ∈ p.pendings base →
    base ≤ e ∧ e ≤ base + p.offset
  | literal _, _, h => by simp [pendings] at h
  | regex _, _, h => by simp [pendings] at h
  | reference _, _, h => by
    simp only [pendings, List.mem_singleton] at h
    simp [h]
  | compound _ members, e, h => by
    simp only [pendings] at h
    have := mem_pendingsAll h
    simp only [offset]
    omega
  | unary _ member, e, h => by
    simp only [pendings] at h
    have := mem_pendings h
    simp only [offset]
    omega

theorem mem_pendingsAll {base : Nat} : ∀ {ps : List Phrase} {e : Nat}, e ∈ pendingsAll base ps →
    base ≤ e ∧ e < base + sizeAll ps
  | [], _, h => by simp [pendingsAll] at h
  | p :: rest, e, h => by
    simp only [pendingsAll, List.mem_append] at h
    simp only [sizeAll]
    rcases h with h | h
    · have := mem_pendings h
      omega
    · have := mem_pendingsAll h
      omega

end

mutual

theorem nodup_pendings (base : ExprId) : ∀ p : Phrase, (p.pendings base).Nodup
  | literal _ => by simp [pendings]
  | regex _ => by simp [pendings]
  | reference _ => by simp [pendings]
  | compound _ members => by
    simp only [pendings]
    exact nodup_pendingsAll base members
  | unary _ member => by
    simp only [pendings]
    exact nodup_pendings base member

theorem nodup_pendingsAll (base : ExprId) : ∀ ps : List Phrase, (pendingsAll base ps).Nodup
  | [] => by simp [pendingsAll]
  | p :: rest => by
    simp only [pendingsAll]
    refine List.nodup_append.2 ⟨nodup_pendings base p, nodup_pendingsAll _ rest, ?_⟩
    rintro e he _ he' rfl
    have hfirst := mem_pendings he
    have hrest := mem_pendingsAll he'
    omega

end

section Targets

variable {entry : ExprId → Phrase → ExprId} {frozen : Bool}

mutual

/-- The references of a block name the targets of the phrase, in order. -/
theorem map_targetOf?_pendings {name : Text} {place : Option Place} {base : ExprId} :
    ∀ {p : Phrase}, store.Holds base (p.cells entry frozen name place base) →
      (p.pendings base).map store.targetOf? = p.targets.map some
  | literal _, _ => by simp [pendings, targets]
  | regex _, _ => by simp [pendings, targets]
  | reference target, h => by
    simp only [cells] at h
    simp [pendings, targets, targetOf?, h.only, Cell.target?]
  | compound _ members, h => by
    simp only [cells] at h
    simp only [pendings, targets]
    exact map_targetOf?_pendingsAll h.left
  | unary _ member, h => by
    simp only [cells] at h
    simp only [pendings, targets]
    exact map_targetOf?_pendings h.left

theorem map_targetOf?_pendingsAll {seat : Nat → Option Place} {slot : Nat} {base : ExprId} :
    ∀ {ps : List Phrase}, store.Holds base (cellsAll entry frozen seat slot base ps) →
      (pendingsAll base ps).map store.targetOf? = (targetsAll ps).map some
  | [], _ => by simp [pendingsAll, targetsAll]
  | p :: rest, h => by
    obtain ⟨hfirst, hrest⟩ := Holds.cellsAll_cons h
    simp only [pendingsAll, targetsAll, List.map_append]
    rw [map_targetOf?_pendings hfirst, map_targetOf?_pendingsAll hrest]

end

end Targets

/-! ## What a linked block holds and what can be reached in it -/

section Linked

variable {link : Text → ExprId} {frozen : Bool}

theorem solid_linked {name : Text} {place : Option Place} {base : ExprId} {p : Phrase}
    (h : store.Holds base (p.cells (linked link) frozen name place base))
    (htargets : ∀ t ∈ p.targets, store.Solid (link t)) : store.Solid (linked link base p) := by
  by_cases href : p.IsReference
  · cases p with
    | reference target => exact htargets target (by simp [targets])
    | _ => exact absurd href id
  · obtain ⟨cell, hcell, -, hform⟩ := exists_root href h
    exact ⟨cell, by rw [linked_eq_root href]; exact hcell, hform⟩

mutual

/-- The slots of a linked block hold what is finished, if the rules are. -/
theorem solid_of_mem_members {name : Text} {place : Option Place} {base : ExprId} :
    ∀ {p : Phrase}, store.Holds base (p.cells (linked link) frozen name place base) →
      (∀ t ∈ p.targets, store.Solid (link t)) →
      ∀ cell ∈ p.cells (linked link) frozen name place base, ∀ m ∈ cell.members, store.Solid m
  | literal _, _, _ => by simp [cells, Cell.members, Form.members]
  | regex _, _, _ => by simp [cells, Cell.members, Form.members]
  | reference _, _, _ => by simp [cells, Cell.members, Form.members]
  | compound order members, h, htargets => by
    simp only [cells] at h
    simp only [targets] at htargets
    have hmembers := solid_of_mem_membersAll h.left htargets
    intro cell hcell
    simp only [cells, List.mem_append, List.mem_singleton] at hcell
    rcases hcell with hcell | rfl
    · exact hmembers.2 cell hcell
    · exact hmembers.1
  | unary wrap member, h, htargets => by
    simp only [cells] at h
    simp only [targets] at htargets
    intro cell hcell
    simp only [cells, List.mem_append, List.mem_singleton] at hcell
    rcases hcell with hcell | rfl
    · exact solid_of_mem_members h.left htargets cell hcell
    · intro m hm
      simp only [Cell.members, Form.members, List.mem_singleton] at hm
      subst hm
      exact solid_linked h.left htargets

theorem solid_of_mem_membersAll {seat : Nat → Option Place} {slot : Nat} {base : ExprId} :
    ∀ {ps : List Phrase}, store.Holds base (cellsAll (linked link) frozen seat slot base ps) →
      (∀ t ∈ targetsAll ps, store.Solid (link t)) →
      (∀ m ∈ entries (linked link) base ps, store.Solid m) ∧
      ∀ cell ∈ cellsAll (linked link) frozen seat slot base ps, ∀ m ∈ cell.members, store.Solid m
  | [], _, _ => by simp [entries, cellsAll]
  | p :: rest, h, htargets => by
    obtain ⟨hfirst, hrest⟩ := Holds.cellsAll_cons h
    simp only [targetsAll, List.mem_append] at htargets
    have ih := solid_of_mem_membersAll hrest fun t ht => htargets t (.inr ht)
    refine ⟨fun m hm => ?_, fun cell hcell => ?_⟩
    · simp only [entries, List.mem_cons] at hm
      rcases hm with rfl | hm
      · exact solid_linked hfirst fun t ht => htargets t (.inl ht)
      · exact ih.1 m hm
    · simp only [cellsAll, List.mem_append] at hcell
      rcases hcell with hcell | hcell
      · exact solid_of_mem_members hfirst (fun t ht => htargets t (.inl ht)) cell hcell
      · exact ih.2 cell hcell

end

mutual

/-- From the last expression of a linked block, all of the block but its references can be
reached. -/
theorem reach_of_solid {roots : List ExprId} {name : Text} {place : Option Place} {base : Nat} :
    ∀ {p : Phrase}, store.Holds base (p.cells (linked link) frozen name place base) →
      (¬ p.IsReference → Reach store.membersOf roots (p.root base)) →
      ∀ (k : Nat) (cell : Cell), (p.cells (linked link) frozen name place base)[k]? = some cell →
        cell.target? = none → Reach store.membersOf roots (base + k)
  | literal _, _, hroot, k, cell, hk, _ => by
    obtain ⟨rfl, -⟩ := getElem?_singleton hk
    exact hroot id
  | regex _, _, hroot, k, cell, hk, _ => by
    obtain ⟨rfl, -⟩ := getElem?_singleton hk
    exact hroot id
  | reference _, _, _, k, cell, hk, htarget => by
    obtain ⟨rfl, rfl⟩ := getElem?_singleton hk
    cases htarget
  | compound order members, h, hroot, k, cell, hk, htarget => by
    simp only [cells] at h hk
    have hq : store[base + sizeAll members]? =
        some ⟨name, .compound order (entries (linked link) base members) frozen⟩ := by
      simpa using h.last
    have hreach := hroot id
    rcases getElem?_append_cases hk with hk | ⟨j, rfl, hj⟩
    · refine reach_of_solidAll h.left (fun m hm => .member hreach ?_) k cell hk htarget
      rw [root, offset, membersOf_eq hq]
      exact hm
    · obtain ⟨rfl, -⟩ := getElem?_singleton hj
      simpa [root, offset] using hreach
  | unary wrap member, h, hroot, k, cell, hk, htarget => by
    simp only [cells] at h hk
    have hq : store[base + (member.offset + 1)]? = some ⟨name, .unary wrap (linked link base member)⟩ := by
      simpa using h.last
    have hreach := hroot id
    rcases getElem?_append_cases hk with hk | ⟨j, rfl, hj⟩
    · refine reach_of_solid h.left (fun href => .member hreach ?_) k cell hk htarget
      rw [root, offset, membersOf_eq hq, ← linked_eq_root href link base]
      exact List.mem_singleton_self _
    · obtain ⟨rfl, -⟩ := getElem?_singleton hj
      simpa [root, offset] using hreach

theorem reach_of_solidAll {roots : List ExprId} {seat : Nat → Option Place} {slot base : Nat} :
    ∀ {ps : List Phrase}, store.Holds base (cellsAll (linked link) frozen seat slot base ps) →
      (∀ m ∈ entries (linked link) base ps, Reach store.membersOf roots m) →
      ∀ (k : Nat) (cell : Cell), (cellsAll (linked link) frozen seat slot base ps)[k]? = some cell →
        cell.target? = none → Reach store.membersOf roots (base + k)
  | [], _, _, k, cell, hk, _ => by simp [cellsAll] at hk
  | p :: rest, h, hreach, k, cell, hk, htarget => by
    obtain ⟨hfirst, hrest⟩ := Holds.cellsAll_cons h
    simp only [cellsAll] at hk
    simp only [entries, List.mem_cons] at hreach
    rcases getElem?_append_cases hk with hk | ⟨j, rfl, hj⟩
    · refine reach_of_solid hfirst (fun href => ?_) k cell hk htarget
      exact hreach _ (.inl (linked_eq_root href link base).symm)
    · have ih := reach_of_solidAll hrest (fun m hm => hreach m (.inr hm)) j cell hj htarget
      rwa [length_cells, ← Nat.add_assoc, ← Nat.add_assoc]

end

end Linked

/-! ## Freezing a block -/

section Freezing

variable {entry : ExprId → Phrase → ExprId} {frozen : Bool}

mutual

/-- Freezing a block closes its member lists. -/
theorem map_freeze_cells (name : Text) (place : Option Place) (base : ExprId) : ∀ p : Phrase,
    (p.cells entry frozen name place base).map Cell.freeze = p.cells entry true name place base
  | literal _ => by simp [cells, Cell.freeze]
  | regex _ => by simp [cells, Cell.freeze]
  | reference _ => by simp [cells, Cell.freeze]
  | compound _ members => by simp [cells, Cell.freeze, map_freeze_cellsAll _ _ _ members]
  | unary _ member => by simp [cells, Cell.freeze, map_freeze_cells _ _ _ member]

theorem map_freeze_cellsAll (seat : Nat → Option Place) (slot : Nat) (base : ExprId) :
    ∀ ps : List Phrase, (cellsAll entry frozen seat slot base ps).map Cell.freeze =
      cellsAll entry true seat slot base ps
  | [] => by simp [cellsAll]
  | p :: rest => by
    simp [cellsAll, map_freeze_cells _ _ _ p, map_freeze_cellsAll _ _ _ rest]

end

end Freezing

@[simp] theorem targets_wrapped (p : Phrase) : p.wrapped.targets = p.targets := by
  cases p <;> simp [wrapped, targets, targetsAll]

end Phrase

/-! ## Definitions -/

namespace Definition

open Store

variable {store : Store} {entry : ExprId → Phrase → ExprId} {frozen : Bool}

/-- The targets of the references in definitions, in the order of writing. -/
def targets (ds : List Definition) : List Text := ds.flatMap fun d => d.body.targets

/-- The rule of a name among those of definitions. -/
def ruleOf (ds : List Definition) (name : Text) : ExprId := ((rulesFrom 0 ds).lookup name).getD 0

@[simp] theorem targets_cons (d : Definition) (rest : List Definition) :
    targets (d :: rest) = d.phrase.targets ++ targets rest := by
  simp [targets, phrase]

/-- The block of a definition among the others. -/
theorem Holds.cellsFrom_cons {base : ExprId} {d : Definition} {rest : List Definition}
    (h : store.Holds base (cellsFrom entry frozen base (d :: rest))) :
    store.Holds base (d.phrase.cells entry frozen d.label none base) ∧
      store.Holds (base + d.phrase.offset + 1)
        (cellsFrom entry frozen (base + d.phrase.offset + 1) rest) := by
  simp only [cellsFrom] at h
  have hrest := h.right
  rw [Phrase.length_cells, ← Nat.add_assoc] at hrest
  exact ⟨h.left, hrest⟩

theorem names_rulesFrom : ∀ (base : ExprId) (ds : List Definition),
    (rulesFrom base ds).map (·.1) = ds.map label
  | _, [] => rfl
  | base, d :: rest => by simp [rulesFrom, names_rulesFrom _ rest]

theorem mem_pendingsFrom {base : Nat} : ∀ {ds : List Definition} {e : Nat},
    e ∈ pendingsFrom base ds → base ≤ e
  | [], _, h => by simp [pendingsFrom] at h
  | d :: rest, e, h => by
    simp only [pendingsFrom, List.mem_append] at h
    rcases h with h | h
    · exact (Phrase.mem_pendings h).1
    · have := mem_pendingsFrom h
      omega

theorem nodup_pendingsFrom : ∀ (base : Nat) (ds : List Definition), (pendingsFrom base ds).Nodup
  | _, [] => by simp [pendingsFrom]
  | base, d :: rest => by
    simp only [pendingsFrom]
    refine List.nodup_append.2 ⟨Phrase.nodup_pendings base _, nodup_pendingsFrom _ rest, ?_⟩
    rintro e he _ he' rfl
    have hfirst := Phrase.mem_pendings he
    have hrest := mem_pendingsFrom he'
    omega

theorem map_targetOf?_pendingsFrom : ∀ {base : ExprId} {ds : List Definition},
    store.Holds base (cellsFrom entry frozen base ds) →
    (pendingsFrom base ds).map store.targetOf? = (targets ds).map some
  | _, [], _ => rfl
  | base, d :: rest, h => by
    obtain ⟨hfirst, hrest⟩ := Holds.cellsFrom_cons h
    simp only [pendingsFrom, targets_cons, List.map_append]
    rw [Phrase.map_targetOf?_pendings hfirst, map_targetOf?_pendingsFrom hrest]

theorem seated_of_mem_pendingsFrom : ∀ {base : ExprId} {ds : List Definition},
    store.Holds base (cellsFrom Phrase.root false base ds) →
    ∀ e ∈ pendingsFrom base ds, store.Seated e
  | _, [], _ => by simp [pendingsFrom]
  | base, d :: rest, h => by
    obtain ⟨hfirst, hrest⟩ := Holds.cellsFrom_cons h
    intro e he
    simp only [pendingsFrom, List.mem_append] at he
    rcases he with he | he
    · exact Phrase.seated_of_mem_pendings d.phrase_not_isReference hfirst e he
    · exact seated_of_mem_pendingsFrom hrest e he

theorem relink_cellsFrom {rules : Rules} {pending : List ExprId} {link : Text → ExprId}
    (hpending : ∀ e ∈ pending, store.targetOf? e ≠ none) : ∀ {base : ExprId} {ds : List Definition},
    store.Holds base (cellsFrom Phrase.root false base ds) →
    (∀ e ∈ pendingsFrom base ds, e ∈ pending) →
    (∀ t ∈ targets ds, rules.lookup t = some (link t)) →
    Phrase.relink store rules pending base (cellsFrom Phrase.root false base ds) =
      cellsFrom (Phrase.linked link) false base ds
  | _, [], _, _, _ => rfl
  | base, d :: rest, h, hsub, htargets => by
    obtain ⟨hfirst, hrest⟩ := Holds.cellsFrom_cons h
    simp only [pendingsFrom, List.mem_append] at hsub
    simp only [targets_cons, List.mem_append] at htargets
    simp only [cellsFrom, Phrase.relink_append, Phrase.length_cells]
    rw [Phrase.relink_cells hpending hfirst (fun e he => hsub e (.inl he)) fun t ht =>
        htargets t (.inl ht), ← Nat.add_assoc,
      relink_cellsFrom hpending hrest (fun e he => hsub e (.inr he)) fun t ht => htargets t (.inr ht)]

theorem map_freeze_cellsFrom : ∀ (base : ExprId) (ds : List Definition),
    (cellsFrom entry frozen base ds).map Cell.freeze = cellsFrom entry true base ds
  | _, [] => rfl
  | base, d :: rest => by
    simp [cellsFrom, Phrase.map_freeze_cells, map_freeze_cellsFrom _ rest]

/-- The expression of a rule has the name of the rule and is finished. -/
theorem exists_cell_of_mem_rulesFrom : ∀ {base : ExprId} {ds : List Definition},
    store.Holds base (cellsFrom entry frozen base ds) → ∀ r ∈ rulesFrom base ds,
    ∃ cell, store[r.2]? = some cell ∧ cell.name = r.1 ∧ cell.form.Finished
  | _, [], _ => by simp [rulesFrom]
  | base, d :: rest, h => by
    obtain ⟨hfirst, hrest⟩ := Holds.cellsFrom_cons h
    intro r hr
    simp only [rulesFrom, List.mem_cons] at hr
    rcases hr with rfl | hr
    · exact Phrase.exists_root d.phrase_not_isReference hfirst
    · exact exists_cell_of_mem_rulesFrom hrest r hr

section Linked

variable {link : Text → ExprId}

/-- The slots of linked definitions hold what is finished. -/
theorem solid_of_mem_members : ∀ {base : ExprId} {ds : List Definition},
    store.Holds base (cellsFrom (Phrase.linked link) frozen base ds) →
    (∀ t ∈ targets ds, store.Solid (link t)) →
    ∀ cell ∈ cellsFrom (Phrase.linked link) frozen base ds, ∀ m ∈ cell.members, store.Solid m
  | _, [], _, _ => by simp [cellsFrom]
  | base, d :: rest, h, htargets => by
    obtain ⟨hfirst, hrest⟩ := Holds.cellsFrom_cons h
    simp only [targets_cons, List.mem_append] at htargets
    intro cell hcell
    simp only [cellsFrom, List.mem_append] at hcell
    rcases hcell with hcell | hcell
    · exact Phrase.solid_of_mem_members hfirst (fun t ht => htargets t (.inl ht)) cell hcell
    · exact solid_of_mem_members hrest (fun t ht => htargets t (.inr ht)) cell hcell

/-- All of linked definitions but the references can be reached from the rules. -/
theorem reach_of_solid {roots : List ExprId} : ∀ {base : Nat} {ds : List Definition},
    store.Holds base (cellsFrom (Phrase.linked link) frozen base ds) →
    (∀ r ∈ rulesFrom base ds, r.2 ∈ roots) →
    ∀ (k : Nat) (cell : Cell), (cellsFrom (Phrase.linked link) frozen base ds)[k]? = some cell →
      cell.target? = none → Reach store.membersOf roots (base + k)
  | _, [], _, _, k, cell, hk, _ => by simp [cellsFrom] at hk
  | base, d :: rest, h, hroots, k, cell, hk, htarget => by
    obtain ⟨hfirst, hrest⟩ := Holds.cellsFrom_cons h
    simp only [rulesFrom, List.mem_cons] at hroots
    simp only [cellsFrom] at hk
    rcases getElem?_append_cases hk with hk | ⟨j, rfl, hj⟩
    · exact Phrase.reach_of_solid hfirst (fun _ => .root (hroots _ (.inl rfl))) k cell hk htarget
    · have ih := reach_of_solid hrest (fun r hr => hroots r (.inr hr)) j cell hj htarget
      rwa [Phrase.length_cells, ← Nat.add_assoc, ← Nat.add_assoc]

end Linked

theorem mem_of_lookup {rules : Rules} {name : Text} {e : ExprId} (h : rules.lookup name = some e) :
    (name, e) ∈ rules := by
  obtain ⟨before, after, rfl, -⟩ := List.lookup_eq_some_iff.1 h
  simp

/-- A name with a definition has a rule. -/
theorem lookup_rulesFrom {ds : List Definition} {name : Text} (h : name ∈ ds.map label) :
    (rulesFrom 0 ds).lookup name = some (ruleOf ds name) := by
  rw [← names_rulesFrom 0] at h
  obtain ⟨r, hmem, hname⟩ := List.mem_map.1 h
  obtain ⟨e, he⟩ := Option.isSome_iff_exists.1
    (List.lookup_isSome_iff.2 ⟨r, hmem, beq_iff_eq.2 hname.symm⟩)
  rw [ruleOf, he, Option.getD_some]

theorem lookup_rulesFrom_of_not_mem {ds : List Definition} {name : Text} (h : name ∉ ds.map label) :
    (rulesFrom 0 ds).lookup name = none := by
  refine List.lookup_eq_none_iff.2 fun r hr => ?_
  rw [← names_rulesFrom 0] at h
  exact bne_iff_ne.2 fun heq => h (heq ▸ List.mem_map_of_mem hr)

/-! ## Assembling -/

/-- The store of definitions, linked and frozen. -/
def graph (ds : List Definition) : Store := (cellsFrom (Phrase.linked (ruleOf ds)) true 0 ds).toArray

theorem holds_toArray (cells : List Cell) : Store.Holds cells.toArray 0 cells := by
  simpa using holds_append [] cells []

variable {ds : List Definition}

/-- Every reference among definitions names one of them. -/
def Complete (ds : List Definition) : Prop := ∀ t ∈ targets ds, t ∈ ds.map label

instance (ds : List Definition) : Decidable (Complete ds) :=
  inferInstanceAs (Decidable (∀ t ∈ targets ds, t ∈ ds.map label))

/-- The store of definitions as they are built, with the references in place. -/
def pendingGraph (ds : List Definition) : Store := (cellsFrom Phrase.root false 0 ds).toArray

theorem holds_pendingGraph (ds : List Definition) :
    (pendingGraph ds).Holds 0 (cellsFrom Phrase.root false 0 ds) := holds_toArray _

/-- A reference among definitions has one of their targets. -/
theorem targetOf?_pendingGraph {e : ExprId} (he : e ∈ pendingsFrom 0 ds) :
    ∃ target ∈ targets ds, (pendingGraph ds).targetOf? e = some target := by
  have hmem := List.mem_map_of_mem (f := (pendingGraph ds).targetOf?) he
  rw [map_targetOf?_pendingsFrom (holds_pendingGraph ds)] at hmem
  obtain ⟨target, htarget, heq⟩ := List.mem_map.1 hmem
  exact ⟨target, htarget, heq.symm⟩

theorem linkable_pendingGraph (h : Complete ds) :
    Build.Linkable (pendingGraph ds) (rulesFrom 0 ds) (pendingsFrom 0 ds) where
  nodup := nodup_pendingsFrom 0 ds
  seated := seated_of_mem_pendingsFrom (holds_pendingGraph ds)
  named e he := by
    obtain ⟨target, htarget, heq⟩ := targetOf?_pendingGraph he
    exact ⟨target, _, heq, lookup_rulesFrom (h target htarget)⟩

/-- Linking complete definitions puts a rule into every slot with a reference. -/
theorem getElem?_linked (h : Complete ds) (q : ExprId) :
    (cellsFrom (Phrase.linked (ruleOf ds)) false 0 ds).toArray[q]? =
      (pendingGraph ds)[q]?.map
        (Cell.mapSlots ((pendingGraph ds).linkedSlot (rulesFrom 0 ds) (pendingsFrom 0 ds) q)) := by
  have hpending : ∀ e ∈ pendingsFrom 0 ds, (pendingGraph ds).targetOf? e ≠ none := by
    intro e he
    obtain ⟨target, -, heq⟩ := targetOf?_pendingGraph he
    simp [heq]
  rw [← relink_cellsFrom hpending (holds_pendingGraph ds) (fun e he => he) fun t ht =>
    lookup_rulesFrom (h t ht)]
  simp [Phrase.relink, pendingGraph]

theorem link_pendingGraph (h : Complete ds) :
    (Build.link (rulesFrom 0 ds) (pendingsFrom 0 ds)).runOn (pendingGraph ds) =
      (.ok ⟨⟩, (cellsFrom (Phrase.linked (ruleOf ds)) false 0 ds).toArray) := by
  obtain ⟨store', hrun, hcells⟩ := Build.link_runOn (linkable_pendingGraph h)
  rw [hrun]
  congr 1
  refine Array.ext_getElem? fun q => ?_
  rw [hcells q, getElem?_linked h]

/-- The rules of linked definitions are finished. -/
theorem solid_ruleOf {frozen : Bool} {name : Text} (hname : name ∈ ds.map label) :
    Store.Solid (cellsFrom (Phrase.linked (ruleOf ds)) frozen 0 ds).toArray (ruleOf ds name) := by
  obtain ⟨cell, hcell, -, hform⟩ := exists_cell_of_mem_rulesFrom
    (holds_toArray (cellsFrom (Phrase.linked (ruleOf ds)) frozen 0 ds)) _
    (mem_of_lookup (lookup_rulesFrom hname))
  exact ⟨cell, hcell, hform⟩

/-- All that can be reached from the rules of linked definitions is finished. -/
theorem solid_of_reach (h : Complete ds) {frozen : Bool} {e : ExprId}
    (hreach : Reach (Store.membersOf (cellsFrom (Phrase.linked (ruleOf ds)) frozen 0 ds).toArray)
      ((rulesFrom 0 ds).map (·.2)) e) :
    Store.Solid (cellsFrom (Phrase.linked (ruleOf ds)) frozen 0 ds).toArray e := by
  have hholds := holds_toArray (cellsFrom (Phrase.linked (ruleOf ds)) frozen 0 ds)
  cases hreach with
  | root hroot =>
    obtain ⟨r, hr, rfl⟩ := List.mem_map.1 hroot
    obtain ⟨cell, hcell, -, hform⟩ := exists_cell_of_mem_rulesFrom hholds r hr
    exact ⟨cell, hcell, hform⟩
  | @member q _ _ hm =>
    rcases hq : (cellsFrom (Phrase.linked (ruleOf ds)) frozen 0 ds).toArray[q]? with _ | cell
    · simp [membersOf, hq] at hm
    · rw [membersOf_eq hq] at hm
      refine solid_of_mem_members hholds (fun t ht => solid_ruleOf (h t ht)) cell ?_ e hm
      rw [List.getElem?_toArray] at hq
      exact List.mem_of_getElem? hq

/-- Freezing linked definitions closes every member list. -/
theorem freeze_cellsFrom (h : Complete ds) :
    (Build.freeze ((rulesFrom 0 ds).map (·.2))).runOn
        (cellsFrom (Phrase.linked (ruleOf ds)) false 0 ds).toArray = (.ok ⟨⟩, graph ds) := by
  have hfree : ∀ e, Reach (Store.membersOf (cellsFrom (Phrase.linked (ruleOf ds)) false 0 ds).toArray)
      ((rulesFrom 0 ds).map (·.2)) e →
      Store.targetOf? (cellsFrom (Phrase.linked (ruleOf ds)) false 0 ds).toArray e = none := by
    exact fun e he => (solid_of_reach h he).targetOf?
  obtain ⟨store', hrun, -, hreached, hothers⟩ := Build.freeze_runOn hfree
  rw [hrun]
  congr 1
  refine Array.ext_getElem? fun q => ?_
  have hfrozen : (graph ds)[q]? =
      (cellsFrom (Phrase.linked (ruleOf ds)) false 0 ds).toArray[q]?.map Cell.freeze := by
    rw [graph, ← @map_freeze_cellsFrom _ false, List.getElem?_toArray, List.getElem?_toArray,
      List.getElem?_map]
  rw [hfrozen]
  by_cases hq : Reach (Store.membersOf (cellsFrom (Phrase.linked (ruleOf ds)) false 0 ds).toArray)
      ((rulesFrom 0 ds).map (·.2)) q
  · exact hreached q hq
  · -- Only a replaced reference is not reached, and freezing leaves it as it is.
    rw [hothers q hq]
    rcases hcell : (cellsFrom (Phrase.linked (ruleOf ds)) false 0 ds).toArray[q]? with _ | cell
    · rfl
    · have htarget : cell.target? ≠ none := by
        intro htarget
        refine hq ?_
        have hreach := reach_of_solid (holds_toArray (cellsFrom (Phrase.linked (ruleOf ds)) false 0 ds))
          (fun r hr => List.mem_map_of_mem hr) q cell (by rwa [List.getElem?_toArray] at hcell) htarget
        rwa [Nat.zero_add] at hreach
      rw [Option.map_some, Cell.freeze_of_target? htarget]

theorem buildAll_runOn_empty (ds : List Definition) :
    (buildAll ds).runOn #[] = (.ok (rulesFrom 0 ds, pendingsFrom 0 ds), pendingGraph ds) :=
  buildAll_runOn [] ds

/-- Complete definitions are assembled: every slot with a reference gets the rule, and
every member list is frozen. -/
theorem assemble_runOn (h : Complete ds) :
    (assemble ds).runOn #[] = (.ok (rulesFrom 0 ds), graph ds) := by
  rw [assemble, Build.runOn_bind_ok (buildAll_runOn_empty ds)]
  dsimp only
  rw [Build.runOn_bind_ok (link_pendingGraph h), Build.runOn_bind_ok (freeze_cellsFrom h),
    Build.runOn_pure]

/-- Of definitions that are not complete, the first reference without a rule is reported. -/
theorem assemble_runOn_missing {target : Text}
    (h : (targets ds).find? (fun t => t ∉ ds.map label) = some target) :
    ((assemble ds).runOn #[]).1 = .error (.undefinedRule target) := by
  have hfind : (fun t => ((rulesFrom 0 ds).lookup t).isNone) = fun t => decide (t ∉ ds.map label) := by
    funext t
    by_cases ht : t ∈ ds.map label
    · simp [ht, lookup_rulesFrom ht]
    · simp [ht, lookup_rulesFrom_of_not_mem ht]
  rw [← hfind] at h
  have hlink := Build.link_runOn_missing (map_targetOf?_pendingsFrom (holds_pendingGraph ds)) h
  rw [assemble, Build.runOn_bind_ok (buildAll_runOn_empty ds)]
  dsimp only
  rw [Build.runOn_bind_error hlink]

/-- Definitions that are not complete have a first target without a rule. -/
theorem exists_missing (h : ¬ Complete ds) :
    ∃ target, (targets ds).find? (fun t => t ∉ ds.map label) = some target := by
  simp only [Complete, not_forall] at h
  obtain ⟨t, ht, hnone⟩ := h
  refine Option.isSome_iff_exists.1 ?_
  rw [List.find?_isSome]
  exact ⟨t, ht, by simpa using hnone⟩

/-- Only complete definitions are assembled. -/
theorem complete_of_assemble {rules : Rules} {store : Store}
    (h : (assemble ds).runOn #[] = (.ok rules, store)) : Complete ds := by
  by_contra hmissing
  obtain ⟨target, htarget⟩ := exists_missing hmissing
  have herror := assemble_runOn_missing htarget
  rw [h] at herror
  cases herror

end Definition

end Pegboard
