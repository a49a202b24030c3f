import Mathlib.Data.Set.List
import Pegboard.Expr.Edit
import Pegboard.Proofs.Expr.Edit
import Pegboard.Proofs.Expr.Link

/-!
# Linking a worklist

A worklist is linked as a whole or not at all, provided that each of its references sits in the
slot that it records and that none comes twice.

If a reference dangles, which is that the rules have nothing for its target, the first one that
does is named by the error, and the worklist is as before.  Otherwise every recorded slot is
given the rule of its reference.  What a slot holds after that is said by `Store.linkedSlot`,
which asks only whether a reference is in the worklist, so the order of the worklist does not
matter (`linkedSlot_perm`).  It also shows that no slot is written but those recorded.

`Worklist.link_exact` puts the two together.
-/

namespace Pegboard

namespace Store

/-- Whether the rules have nothing for the target of an expression. -/
def dangles (store : Store) (rules : Rules) (e : ExprId) : Bool :=
  ((store.targetOf? e).bind (rules.lookup ·)).isNone

variable {store : Store} {rules : Rules} {pending : List ExprId}

theorem not_dangles_iff {e : ExprId} : store.dangles rules e = false ↔
    ∃ target rule, store.targetOf? e = some target ∧ rules.lookup target = some rule := by
  rw [dangles, Option.isNone_eq_false_iff, Option.isSome_iff_exists]
  constructor
  · rintro ⟨rule, h⟩
    obtain ⟨target, htarget, hrule⟩ := Option.bind_eq_some_iff.1 h
    exact ⟨target, rule, htarget, hrule⟩
  · rintro ⟨target, rule, htarget, hrule⟩
    exact ⟨rule, Option.bind_eq_some_iff.2 ⟨target, htarget, hrule⟩⟩

theorem Seated.exists_target {e : ExprId} (h : store.Seated e) : ∃ target, store.targetOf? e = some target := by
  obtain ⟨target, -, -, htarget⟩ := Build.pending?_of_seated h
  exact ⟨target, htarget⟩

/-- Only whether a reference is pending counts for a slot. -/
theorem linkedSlot_perm {pending' : List ExprId} (h : pending'.Perm pending) :
    store.linkedSlot rules pending' = store.linkedSlot rules pending := by
  funext p i m
  exact if_congr (and_congr_left' h.mem_iff) rfl rfl

/-- A slot that is not recorded keeps what it holds. -/
theorem linkedSlot_of_not_seat {p : ExprId} {i : Nat} (h : ∀ e ∈ pending, store.seat? e ≠ some (p, i))
    (m : ExprId) : store.linkedSlot rules pending p i m = m :=
  if_neg fun hm => h m hm.1 hm.2

theorem membersOf_mapSlots {store' : Store} {q : ExprId} {f : Nat → ExprId → ExprId}
    (h : store'[q]? = store[q]?.map (Cell.mapSlots f)) :
    store'.membersOf q = (store.membersOf q).mapIdx f := by
  rw [membersOf, membersOf, h]
  rcases store[q]? with _ | cell
  · rfl
  · exact cell.mapSlots_members

end Store

namespace Build

variable {store : Store} {rules : Rules} {pending : List ExprId}

/-- If a pending reference dangles, linking stops at the first one that does, and writes
nothing. -/
theorem link_runOn_dangling {e : ExprId} (htargets : ∀ x ∈ pending, ∃ target, store.targetOf? x = some target)
    (h : pending.find? (store.dangles rules) = some e) :
    ∃ target, store.targetOf? e = some target ∧
      (link rules pending).runOn store = (.error (.undefinedRule target), store) := by
  have hrange : pending.map store.targetOf? ∈ Set.range (List.map some) := by
    rw [Set.range_list_map]
    intro t ht
    obtain ⟨x, hx, rfl⟩ := List.mem_map.1 ht
    obtain ⟨target, htarget⟩ := htargets x hx
    exact ⟨target, htarget.symm⟩
  obtain ⟨targets, hnames⟩ := hrange
  have hfirst : (pending.map store.targetOf?).find? (fun t => (t.bind (rules.lookup ·)).isNone) =
      some (store.targetOf? e) := by
    rw [List.find?_map]
    exact Option.map_eq_some_iff.2 ⟨e, h, rfl⟩
  rw [← hnames, List.find?_map] at hfirst
  obtain ⟨target, hmissing, htarget⟩ := Option.map_eq_some_iff.1 hfirst
  exact ⟨target, htarget.symm, link_runOn_missing hnames.symm hmissing⟩

/-- Whether references can be linked does not depend on their order. -/
theorem Linkable.perm {pending' : List ExprId} (h : Linkable store rules pending)
    (hperm : pending'.Perm pending) : Linkable store rules pending' where
  nodup := hperm.nodup_iff.2 h.nodup
  seated e he := h.seated e (hperm.mem_iff.1 he)
  named e he := h.named e (hperm.mem_iff.1 he)

/-- Nor does the store that comes of it. -/
theorem Linkable.link_perm {pending' : List ExprId} (h : Linkable store rules pending)
    (hperm : pending'.Perm pending) :
    (link rules pending').runOn store = (link rules pending).runOn store := by
  obtain ⟨store₁, hrun₁, hcells₁⟩ := link_runOn (h.perm hperm)
  obtain ⟨store₂, hrun₂, hcells₂⟩ := link_runOn h
  have hsame : store₁ = store₂ := by
    refine Array.ext_getElem? fun q => ?_
    rw [hcells₁, hcells₂, Store.linkedSlot_perm hperm]
  rw [hrun₁, hrun₂, hsame]

/-- The slots of a linked store: those of the pending references have the rules, and the
others what they had. -/
theorem Linkable.membersOf_linked {store' : Store} (h : Linkable store rules pending)
    (hcells : ∀ q, store'[q]? = store[q]?.map (Cell.mapSlots (store.linkedSlot rules pending q))) :
    (∀ e ∈ pending, ∃ p i target rule, store.seat? e = some (p, i) ∧ store.targetOf? e = some target ∧
      rules.lookup target = some rule ∧ (store'.membersOf p)[i]? = some rule) ∧
    ∀ p i, (∀ e ∈ pending, store.seat? e ≠ some (p, i)) →
      (store'.membersOf p)[i]? = (store.membersOf p)[i]? := by
  have hmembers : ∀ p i, (store'.membersOf p)[i]? =
      (store.membersOf p)[i]?.map (store.linkedSlot rules pending p i) := by
    intro p i
    rw [Store.membersOf_mapSlots (hcells p), List.getElem?_mapIdx]
  refine ⟨fun e he => ?_, fun p i hother => ?_⟩
  · obtain ⟨p, i, hseat, hslot⟩ := h.seated e he
    obtain ⟨target, rule, htarget, hrule⟩ := h.named e he
    refine ⟨p, i, target, rule, hseat, htarget, hrule, ?_⟩
    rw [hmembers, hslot, Option.map_some, Store.linkedSlot, if_pos ⟨he, hseat⟩, Store.ruleFor,
      htarget, Option.bind_some, hrule, Option.getD_some]
  · rw [hmembers]
    rcases (store.membersOf p)[i]? with _ | m
    · rfl
    · rw [Option.map_some, Store.linkedSlot_of_not_seat hother]

end Build

namespace Worklist

open Build

theorem link_of_ok {rules : Rules} {work : Worklist} {store' : Store}
    (h : (Build.link rules work.pending).runOn work.store = (.ok ⟨⟩, store')) :
    work.link rules = (.ok (), ⟨store', []⟩) := by
  rw [link, h]

theorem link_of_error {rules : Rules} {work : Worklist} {store' : Store} {err : Error}
    (h : (Build.link rules work.pending).runOn work.store = (.error err, store')) :
    work.link rules = (.error err, ⟨store', work.pending⟩) := by
  rw [link, h]

/-- Let each reference of a worklist sit in the slot that it records, and none come twice.

If one of them dangles, the error names the target of the first one that does, and the worklist
is as it was.  Otherwise none is left, each recorded slot has the rule of its reference, every
other slot has what it had, and nothing but slots is written: names and the numbers of members
are as before.  The store is then the same for each order of the worklist. -/
theorem link_exact (rules : Rules) (work : Worklist) (hnodup : work.pending.Nodup)
    (hseated : ∀ e ∈ work.pending, work.store.Seated e) :
    (∀ e, work.pending.find? (work.store.dangles rules) = some e →
      ∃ target, work.store.targetOf? e = some target ∧
        work.link rules = (.error (.undefinedRule target), work)) ∧
    (work.pending.find? (work.store.dangles rules) = none →
      ∃ store', work.link rules = (.ok (), ⟨store', []⟩) ∧
        (∀ e ∈ work.pending, ∃ p i target rule, work.store.seat? e = some (p, i) ∧
          work.store.targetOf? e = some target ∧ rules.lookup target = some rule ∧
          (store'.membersOf p)[i]? = some rule) ∧
        (∀ p i, (∀ e ∈ work.pending, work.store.seat? e ≠ some (p, i)) →
          (store'.membersOf p)[i]? = (work.store.membersOf p)[i]?) ∧
        (∀ q, store'.nameOf q = work.store.nameOf q ∧
          (store'.membersOf q).length = (work.store.membersOf q).length ∧
          ∃ f, store'[q]? = work.store[q]?.map (Cell.mapSlots f)) ∧
        ∀ pending', pending'.Perm work.pending →
          (Worklist.mk work.store pending').link rules = (.ok (), ⟨store', []⟩)) := by
  refine ⟨fun e he => ?_, fun hnone => ?_⟩
  · obtain ⟨target, htarget, hrun⟩ :=
      link_runOn_dangling (fun x hx => (hseated x hx).exists_target) he
    exact ⟨target, htarget, link_of_error hrun⟩
  · have hlinkable : Linkable work.store rules work.pending :=
      ⟨hnodup, hseated, fun e he => Store.not_dangles_iff.1
        (Bool.not_eq_true _ ▸ List.find?_eq_none.1 hnone e he)⟩
    obtain ⟨store', hrun, hcells⟩ := link_runOn hlinkable
    obtain ⟨hrecorded, hothers⟩ := hlinkable.membersOf_linked hcells
    refine ⟨store', link_of_ok hrun, hrecorded, hothers, fun q => ⟨?_, ?_, _, hcells q⟩,
      fun pending' hperm => link_of_ok ((hlinkable.link_perm hperm).trans hrun)⟩
    · rw [Store.nameOf, Store.nameOf, hcells, Option.map_map]
      rfl
    · rw [Store.membersOf_mapSlots (hcells q), List.length_mapIdx]

/-- The rules `a = a b*` and `b = "x" / a`, before they are linked. -/
def crossing : Worklist where
  store := #[⟨[], .reference ['a'] (some ⟨1, some 0⟩)⟩, ⟨['a'], .compound .sequence [0, 3] false⟩,
    ⟨[], .reference ['b'] (some ⟨3, none⟩)⟩, ⟨[], .unary .star 2⟩,
    ⟨[], .reference ['a'] (some ⟨5, some 1⟩)⟩, ⟨['b'], .compound .choice [6, 4] false⟩,
    ⟨[], .literal ['x']⟩]
  pending := [0, 2, 4]

theorem link_exact_crossing :
    crossing.pending.Nodup ∧ (∀ e ∈ crossing.pending, crossing.store.Seated e) ∧
    crossing.link [(['a'], 1)] = (.error (.undefinedRule ['b']), crossing) ∧
    ∃ store', crossing.link [(['a'], 1), (['b'], 5)] = (.ok (), ⟨store', []⟩) ∧
      (Worklist.mk crossing.store [4, 0, 2]).link [(['a'], 1), (['b'], 5)] = (.ok (), ⟨store', []⟩) ∧
      (store'.membersOf 3)[0]? = some 5 ∧ (store'.membersOf 5)[0]? = some 6 := by
  have hnodup : crossing.pending.Nodup := by decide
  have hseated : ∀ e ∈ crossing.pending, crossing.store.Seated e := by
    intro e he
    simp only [crossing, List.mem_cons, List.not_mem_nil, or_false] at he
    rcases he with rfl | rfl | rfl
    · exact ⟨1, 0, rfl, rfl⟩
    · exact ⟨3, 0, rfl, rfl⟩
    · exact ⟨5, 1, rfl, rfl⟩
  refine ⟨hnodup, hseated, ?_, ?_⟩
  · obtain ⟨target, htarget, hlink⟩ :=
      (link_exact [(['a'], 1)] crossing hnodup hseated).1 2 (by decide)
    obtain rfl : [.char 'b'] = target := Option.some.inj htarget
    exact hlink
  · obtain ⟨store', hlink, hrecorded, hothers, -, hperm⟩ :=
      (link_exact [(['a'], 1), (['b'], 5)] crossing hnodup hseated).2 (by decide)
    refine ⟨store', hlink, hperm [4, 0, 2] (by decide), ?_, ?_⟩
    · obtain ⟨p, i, target, rule, hseat, htarget, hrule, hslot⟩ := hrecorded 2 (by decide)
      obtain ⟨rfl, rfl⟩ : 3 = p ∧ 0 = i := Prod.mk.inj (Option.some.inj hseat)
      obtain rfl : [.char 'b'] = target := Option.some.inj htarget
      obtain rfl : 5 = rule := Option.some.inj hrule
      exact hslot
    · exact hothers 5 0 (by decide)

end Worklist

end Pegboard
