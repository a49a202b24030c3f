import Pegboard.Proofs.Definition.Linked

/-!
# The references of a piece

A construct that is read by itself becomes a graph with pending references, and so does a rule.
The graph is the tree of one phrase, and three things are said about it here.

*What is pending.*  `Store.Carries` lists the references in the tree under an expression, from
left to right.  It is a function of the expression where it is defined (`Carries.unique`).  The
pending references are those that the root carries, in this order (`Phrase.carries_root`).

*Who holds them.*  A reference in a slot records that slot, the whole slot and nothing else
(`Phrase.place_of_held`).  So it cannot be held twice.

*What is not held.*  A reference that is no root has a slot, since it is seated
(`Phrase.seated_of_mem_pendings`).  A root that is a reference is all there is, so no slot holds
it and it records none.
-/

namespace Pegboard

/-! ## References in the tree under an expression -/

namespace Store

mutual

/-- The references in the tree under an expression, from left to right. -/
inductive Carries (store : Store) : ExprId → List ExprId → Prop
  /-- A reference carries itself. -/
  | reference {e : ExprId} {target : Text} : store.targetOf? e = some target → Carries store e [e]
  /-- Anything else carries what its members carry. -/
  | node {e : ExprId} {cell : Cell} {refs : List ExprId} : store[e]? = some cell → cell.target? = none →
      CarriesAll store cell.members refs → Carries store e refs

/-- The references in the trees under expressions, from left to right. -/
inductive CarriesAll (store : Store) : List ExprId → List ExprId → Prop
  | nil : CarriesAll store [] []
  | cons {e : ExprId} {rest refs more : List ExprId} : Carries store e refs → CarriesAll store rest more →
      CarriesAll store (e :: rest) (refs ++ more)

end

variable {store : Store}

mutual

/-- There is at most one list of the references in a tree. -/
theorem Carries.unique {e : ExprId} {refs refs' : List ExprId} :
    store.Carries e refs → store.Carries e refs' → refs = refs'
  | .reference _, .reference _ => rfl
  | .reference htarget, .node hcell hnone _ => by
    rw [targetOf?, hcell, Option.bind_some, hnone] at htarget
    cases htarget
  | .node hcell hnone _, .reference htarget => by
    rw [targetOf?, hcell, Option.bind_some, hnone] at htarget
    cases htarget
  | .node hcell _ hmembers, .node hcell' _ hmembers' => by
    obtain rfl := Option.some.inj (hcell.symm.trans hcell')
    exact hmembers.unique hmembers'

theorem CarriesAll.unique {es refs refs' : List ExprId} :
    store.CarriesAll es refs → store.CarriesAll es refs' → refs = refs'
  | .nil, .nil => rfl
  | .cons hfirst hrest, .cons hfirst' hrest' => by rw [hfirst.unique hfirst', hrest.unique hrest']

end

/-- The place of a slot: the expression and, if that has several slots, the number of the slot. -/
def placeAt (store : Store) (q : ExprId) (i : Nat) : Place :=
  match store[q]? with
  | some ⟨_, .compound _ _ _⟩ => ⟨q, some i⟩
  | _ => ⟨q, none⟩

theorem placeAt_compound {q : ExprId} {name : Text} {order : Order} {members : List ExprId}
    {frozen : Bool} (h : store[q]? = some ⟨name, .compound order members frozen⟩) (i : Nat) :
    store.placeAt q i = ⟨q, some i⟩ := by
  rw [placeAt, h]

theorem placeAt_unary {q m : ExprId} {name : Text} {wrap : Wrap}
    (h : store[q]? = some ⟨name, .unary wrap m⟩) (i : Nat) : store.placeAt q i = ⟨q, none⟩ := by
  rw [placeAt, h]

theorem placeAt_parent (q : ExprId) (i : Nat) : (store.placeAt q i).parent = q := by
  unfold placeAt
  split <;> rfl

/-- Slots that hold something have different places. -/
theorem placeAt_inj {p q m m' : ExprId} {i j : Nat} (hi : (store.membersOf p)[i]? = some m)
    (hj : (store.membersOf q)[j]? = some m') (h : store.placeAt p i = store.placeAt q j) :
    p = q ∧ i = j := by
  obtain rfl : p = q := by
    have hparent := congrArg Place.parent h
    rwa [placeAt_parent, placeAt_parent] at hparent
  refine ⟨rfl, ?_⟩
  rcases hcell : store[p]? with _ | ⟨name, form⟩
  · simp [membersOf, hcell] at hi
  · rw [membersOf_eq hcell] at hi hj
    cases form with
    | compound order members frozen =>
      rw [placeAt_compound hcell, placeAt_compound hcell] at h
      exact Int.ofNat.inj (Option.some.inj (Place.mk.inj h).2)
    | unary wrap member =>
      -- There is one slot only.
      rw [(getElem?_singleton hi).1, (getElem?_singleton hj).1]
    | _ => cases hi

/-- The expression records the given slot if it is a reference. -/
def Records (store : Store) (e q : ExprId) (i : Nat) : Prop :=
  ∀ target place, Build.pending? store e = some (target, place) → place = some (store.placeAt q i)

end Store

/-! ## The references of a phrase -/

namespace Phrase

open Store

variable {store : Store}

mutual

/-- The last expression of a block carries the references of the block. -/
theorem carries_root {frozen : Bool} {name : Text} {place : Option Place} {base : ExprId} :
    ∀ {p : Phrase}, store.Holds base (p.cells root frozen name place base) →
      store.Carries (p.root base) (p.pendings base)
  | literal text, h => by
    simp only [cells] at h
    exact .node h.only rfl .nil
  | regex pattern, h => by
    simp only [cells] at h
    exact .node h.only rfl .nil
  | reference target, h => by
    simp only [cells] at h
    have htarget : store.targetOf? base = some target := by
      rw [targetOf?, h.only]
      rfl
    exact .reference htarget
  | compound order members, h => by
    simp only [cells] at h
    have hq : store[base + sizeAll members]? =
        some ⟨name, .compound order (entries root base members) frozen⟩ := by
      simpa using h.last
    exact .node hq rfl (carriesAll_entries h.left)
  | unary wrap member, h => by
    simp only [cells] at h
    have hq : store[base + (member.offset + 1)]? = some ⟨name, .unary wrap (member.root base)⟩ := by
      simpa using h.last
    have hmember := CarriesAll.cons (carries_root h.left) .nil
    rw [List.append_nil] at hmember
    exact .node hq rfl hmember

theorem carriesAll_entries {frozen : Bool} {seat : Nat → Option Place} {slot : Nat} {base : ExprId} :
    ∀ {ps : List Phrase}, store.Holds base (cellsAll root frozen seat slot base ps) →
      store.CarriesAll (entries root base ps) (pendingsAll base ps)
  | [], _ => .nil
  | p :: rest, h => by
    obtain ⟨hfirst, hrest⟩ := Holds.cellsAll_cons h
    exact .cons (carries_root hfirst) (carriesAll_entries hrest)

end

/-- The root of a block tells its place if it is a reference. -/
theorem pending?_root {frozen : Bool} {name target : Text} {place place' : Option Place} {base : ExprId}
    {p : Phrase} (h : store.Holds base (p.cells root frozen name place base))
    (hpending : Build.pending? store (p.root base) = some (target, place')) :
    p.IsReference ∧ place' = place := by
  by_cases href : p.IsReference
  · cases p with
    | reference target' =>
      simp only [cells] at h
      simp only [root, offset, Nat.add_zero, Build.pending?, h.only] at hpending
      cases hpending
      exact ⟨href, rfl⟩
    | _ => exact absurd href id
  · obtain ⟨cell, hcell, -, hform⟩ := exists_root href h
    have htarget := Build.pending?_eq_some hpending
    rw [Solid.targetOf? ⟨cell, hcell, hform⟩] at htarget
    cases htarget

/-- A reference in one of consecutive slots records the place of its slot. -/
theorem place_of_entry {frozen : Bool} {seat : Nat → Option Place} {target : Text} {place : Option Place}
    {e : ExprId} : ∀ {ps : List Phrase} {slot base i : Nat},
      store.Holds base (cellsAll root frozen seat slot base ps) → (entries root base ps)[i]? = some e →
      Build.pending? store e = some (target, place) → place = seat (slot + i)
  | p :: rest, slot, base, 0, h, hi, hpending => by
    obtain rfl : p.root base = e := Option.some.inj hi
    exact (pending?_root (Holds.cellsAll_cons h).1 hpending).2
  | p :: rest, slot, base, i + 1, h, hi, hpending => by
    have hrest := place_of_entry (Holds.cellsAll_cons h).2 hi hpending
    rwa [Nat.add_right_comm, Nat.add_assoc] at hrest

mutual

/-- In a block, a reference that a slot holds records that slot. -/
theorem place_of_held {frozen : Bool} {name : Text} {place : Option Place} {base : ExprId} :
    ∀ {p : Phrase}, store.Holds base (p.cells root frozen name place base) →
      ∀ {k : Nat} {cell : Cell} {i : Nat} {e : ExprId},
        (p.cells root frozen name place base)[k]? = some cell → cell.members[i]? = some e →
        store.Records e (base + k) i
  | literal _, _, k, cell, i, e, hk, hi => by
    obtain ⟨-, rfl⟩ := getElem?_singleton hk
    cases hi
  | regex _, _, k, cell, i, e, hk, hi => by
    obtain ⟨-, rfl⟩ := getElem?_singleton hk
    cases hi
  | reference _, _, k, cell, i, e, hk, hi => by
    obtain ⟨-, rfl⟩ := getElem?_singleton hk
    cases hi
  | compound order members, h, k, cell, i, e, hk, hi => by
    simp only [cells] at h hk
    rcases getElem?_append_cases hk with hk | ⟨j, rfl, hj⟩
    · exact place_of_heldAll h.left hk hi
    · obtain ⟨rfl, rfl⟩ := getElem?_singleton hj
      intro target place' hpending
      have hplace := place_of_entry h.left hi hpending
      have hlast := h.last
      rw [length_cellsAll] at hlast ⊢
      rw [Nat.add_zero, placeAt_compound hlast, hplace, Nat.zero_add]
  | unary wrap member, h, k, cell, i, e, hk, hi => by
    simp only [cells] at h hk
    rcases getElem?_append_cases hk with hk | ⟨j, rfl, hj⟩
    · exact place_of_held h.left hk hi
    · obtain ⟨rfl, rfl⟩ := getElem?_singleton hj
      obtain ⟨rfl, rfl⟩ := getElem?_singleton hi
      intro target place' hpending
      have hplace := (pending?_root h.left hpending).2
      have hlast := h.last
      rw [length_cells] at hlast ⊢
      rw [Nat.add_zero, placeAt_unary hlast, hplace]

theorem place_of_heldAll {frozen : Bool} {seat : Nat → Option Place} {slot : Nat} {base : ExprId} :
    ∀ {ps : List Phrase}, store.Holds base (cellsAll root frozen seat slot base ps) →
      ∀ {k : Nat} {cell : Cell} {i : Nat} {e : ExprId},
        (cellsAll root frozen seat slot base ps)[k]? = some cell → cell.members[i]? = some e →
        store.Records e (base + k) i
  | [], _, k, cell, i, e, hk, hi => by simp [cellsAll] at hk
  | p :: rest, h, k, cell, i, e, hk, hi => by
    obtain ⟨hfirst, hrest⟩ := Holds.cellsAll_cons h
    simp only [cellsAll] at hk
    rcases getElem?_append_cases hk with hk | ⟨j, rfl, hj⟩
    · exact place_of_held hfirst hk hi
    · have hrecords := place_of_heldAll hrest hj hi
      rwa [length_cells, ← Nat.add_assoc, ← Nat.add_assoc]

end

end Phrase

/-! ## The graph of a piece -/

namespace Store

/-- The tree of one phrase, the references of which are still pending. -/
structure Unlinked (store : Store) (root : ExprId) (pending : List ExprId) : Prop where
  /-- The pending references are those of the tree, from left to right. -/
  listed : ∀ refs, store.Carries root refs ↔ refs = pending
  /-- None is pending twice. -/
  nodup : pending.Nodup
  /-- A pending reference that is not the root has exactly one slot, which it records. -/
  held : ∀ e ∈ pending, e ≠ root → ∃ q i target, (store.membersOf q)[i]? = some e ∧
    Build.pending? store e = some (target, some (store.placeAt q i)) ∧
    ∀ p j, (store.membersOf p)[j]? = some e → p = q ∧ j = i
  /-- A root that is a reference records no slot. -/
  free : ∀ target place, Build.pending? store root = some (target, place) → place = none

end Store

namespace Phrase

open Store

/-- The store of a phrase that is built by itself. -/
def graph (name : Text) (p : Phrase) : Store := (p.cells root false name none 0).toArray

variable (name : Text) (p : Phrase)

theorem holds_graph : (p.graph name).Holds 0 (p.cells root false name none 0) :=
  Definition.holds_toArray _

/-- In the graph of a phrase, a reference that a slot holds records that slot. -/
theorem records_graph {q i e : Nat} (h : ((p.graph name).membersOf q)[i]? = some e) :
    (p.graph name).Records e q i := by
  rcases hcell : (p.graph name)[q]? with _ | cell
  · simp [membersOf, hcell] at h
  · rw [membersOf_eq hcell] at h
    rw [graph, List.getElem?_toArray] at hcell
    have hrecords := place_of_held (p.holds_graph name) hcell h
    rwa [Nat.zero_add] at hrecords

theorem unlinked_graph : (p.graph name).Unlinked (p.root 0) (p.pendings 0) where
  listed refs := by
    have hcarries := carries_root (p.holds_graph name)
    exact ⟨fun h => h.unique hcarries, fun h => h ▸ hcarries⟩
  nodup := nodup_pendings 0 p
  held e he hroot := by
    have href : ¬ p.IsReference := by
      intro href
      cases p with
      | reference target => exact hroot (List.mem_singleton.1 he)
      | _ => exact href
    have hseated := seated_of_mem_pendings href (p.holds_graph name) e he
    obtain ⟨target, place, hpending, -⟩ := Build.pending?_of_seated hseated
    obtain ⟨q, i, -, hslot⟩ := hseated
    have hplace := p.records_graph name hslot target place hpending
    refine ⟨q, i, target, hslot, hplace ▸ hpending, fun p' j hslot' => ?_⟩
    have hplace' := p.records_graph name hslot' target place hpending
    exact placeAt_inj hslot' hslot (Option.some.inj (hplace'.symm.trans hplace))
  free _ _ hpending := (pending?_root (p.holds_graph name) hpending).2

theorem ofBuild_build : Piece.ofBuild (p.build name) =
    .ok (.graph (p.graph name) (p.root 0) (p.pendings 0)) := by
  have hrun := p.build_runOn name []
  rw [List.nil_append] at hrun
  rw [Piece.ofBuild, hrun]
  rfl

end Phrase

namespace Node

/-- What is read by itself, from whatever tree, is the tree of a phrase with its references
pending, if it is read at all.  A rule is no reference. -/
theorem toPiece_unlinked [Platform] {n : Node} {kind : PieceKind} {piece : Piece}
    (hkind : kind = .rule ∨ ∃ c, kind = .phrase c) (h : n.toPiece kind = .ok piece) :
    ∃ store root pending, piece = .graph store root pending ∧ store.Unlinked root pending ∧
      (kind = .rule → store.targetOf? root = none) := by
  rcases hkind with rfl | ⟨c, rfl⟩
  · obtain ⟨d, -, hd⟩ := bind_eq_ok h
    obtain rfl := Except.ok.inj ((d.phrase.ofBuild_build d.label).symm.trans hd)
    refine ⟨_, _, _, rfl, d.phrase.unlinked_graph d.label, fun _ => ?_⟩
    obtain ⟨cell, hcell, -, hform⟩ :=
      Phrase.exists_root d.phrase_not_isReference (d.phrase.holds_graph d.label)
    exact Store.Solid.targetOf? ⟨cell, hcell, hform⟩
  · obtain ⟨p, -, hp⟩ := bind_eq_ok h
    obtain rfl := Except.ok.inj ((p.ofBuild_build []).symm.trans hp)
    exact ⟨_, _, _, rfl, p.unlinked_graph [], fun hrule => nomatch hrule⟩

/-- A term that is just a reference. -/
def ofReference (target : Codepoint) : Node :=
  .ofRule "term" [.ofRule "atom" [.ofRule "reference" [.ofLabel target]]]

/-- The rule `a = b !c`. -/
def refusing : Node :=
  .ofRule "rule" [.ofLabel 'a', .ofRule "equals" [], .ofRule "expression" [.ofRule "sequence"
    [.ofReference 'b', .ofRule "" [.ofRule "term" [.ofRule "not_term" [.ofRule "" [], .ofReference 'c']]]]]]

attribute [local instance] Platform.builtIn

theorem toPiece_unlinked_refusing :
    (∃ store, refusing.toPiece .rule = .ok (.graph store 3 [0, 1]) ∧ store.Unlinked 3 [0, 1] ∧
      Build.pending? store 0 = some ("b".toText, some ⟨3, some 0⟩) ∧
      Build.pending? store 1 = some ("c".toText, some ⟨2, none⟩) ∧ store.targetOf? 3 = none) ∧
    ∃ store, (ofReference 'b').toPiece (.phrase .term) = .ok (.graph store 0 [0]) ∧
      store.Unlinked 0 [0] ∧ Build.pending? store 0 = some ("b".toText, none) := by
  constructor
  · have hpiece : refusing.toPiece .rule = .ok (.graph
        #[⟨[], .reference ['b'] (some ⟨3, some 0⟩)⟩, ⟨[], .reference ['c'] (some ⟨2, none⟩)⟩,
          ⟨[], .unary .negation 1⟩, ⟨['a'], .compound .sequence [0, 2] false⟩] 3 [0, 1]) := by rfl
    obtain ⟨_, _, _, hgraph, hunlinked, hrule⟩ := toPiece_unlinked (.inl rfl) hpiece
    cases hgraph
    exact ⟨_, hpiece, hunlinked, rfl, rfl, hrule rfl⟩
  · have hpiece : (ofReference 'b').toPiece (.phrase .term) =
        .ok (.graph #[⟨[], .reference ['b'] none⟩] 0 [0]) := by rfl
    obtain ⟨_, _, _, hgraph, hunlinked, -⟩ := toPiece_unlinked (.inr ⟨_, rfl⟩) hpiece
    cases hgraph
    exact ⟨_, hpiece, hunlinked, rfl⟩

end Node

end Pegboard
