import Pegboard.Definition.Phrase
import Pegboard.Proofs.Expr.Link

/-!
# The expressions of a phrase

A phrase that is built takes up consecutive expressions of the store, a block: first the
blocks of its members, then its own expression, which is the last one.  `Phrase.cells`
lists the block.  It takes what a slot holds for the phrase in it (`entry`) and whether
member lists are frozen, so that it describes a block before linking, where a slot holds
the last expression of its phrase (`Phrase.root`), as well as after linking and freezing,
where a slot with a reference holds the rule (`Phrase.linked`).

`build_runOn` and `Definition.buildAll_runOn` say that building appends exactly these
cells and gives the references among them in order.
-/

namespace Pegboard

namespace Phrase

mutual

/-- How many expressions of a phrase come before its last one. -/
def offset : Phrase → Nat
  | literal _ | regex _ | reference _ => 0
  | compound _ members => sizeAll members
  | unary _ member => member.offset + 1

/-- How many expressions phrases take up. -/
def sizeAll : List Phrase → Nat
  | [] => 0
  | p :: rest => p.offset + 1 + sizeAll rest

end

/-- The last expression of a block that starts at `base`. -/
def root (base : ExprId) (p : Phrase) : ExprId := base + p.offset

/-- What a slot holds after linking, for a phrase whose block starts at `base`. -/
def linked (link : Text → ExprId) (base : ExprId) : Phrase → ExprId
  | reference target => link target
  | p => p.root base

/-- What the slots for phrases hold whose blocks follow one another. -/
def entries (entry : ExprId → Phrase → ExprId) : ExprId → List Phrase → List ExprId
  | _, [] => []
  | base, p :: rest => entry base p :: entries entry (base + p.offset + 1) rest

mutual

/-- The block of a phrase that starts at `base`.  `place` is the slot that it sits in, for
a phrase that is a reference. -/
def cells (entry : ExprId → Phrase → ExprId) (frozen : Bool) (name : Text)
    (place : Option Place) (base : ExprId) : Phrase → List Cell
  | literal text => [⟨name, .literal text⟩]
  | regex pattern => [⟨name, .regex pattern⟩]
  | reference target => [⟨name, .reference target place⟩]
  | compound order members =>
    cellsAll entry frozen (fun slot => some ⟨base + sizeAll members, some slot⟩) 0 base members ++
      [⟨name, .compound order (entries entry base members) frozen⟩]
  | unary wrap member =>
    member.cells entry frozen [] (some ⟨base + (member.offset + 1), none⟩) base ++
      [⟨name, .unary wrap (entry base member)⟩]

/-- The blocks of phrases, one after the other.  `seat` gives the place of each slot. -/
def cellsAll (entry : ExprId → Phrase → ExprId) (frozen : Bool) (seat : Nat → Option Place)
    (slot : Nat) (base : ExprId) : List Phrase → List Cell
  | [] => []
  | p :: rest =>
    p.cells entry frozen [] (seat slot) base ++
      cellsAll entry frozen seat (slot + 1) (base + p.offset + 1) rest

end

mutual

/-- The references in the block of a phrase, in the order of writing. -/
def pendings (base : ExprId) : Phrase → List ExprId
  | literal _ | regex _ => []
  | reference _ => [base]
  | compound _ members => pendingsAll base members
  | unary _ member => member.pendings base

/-- The references in the blocks of phrases. -/
def pendingsAll (base : ExprId) : List Phrase → List ExprId
  | [] => []
  | p :: rest => p.pendings base ++ pendingsAll (base + p.offset + 1) rest

end

variable {entry : ExprId → Phrase → ExprId} {frozen : Bool}

mutual

@[simp] theorem length_cells (name : Text) (place : Option Place) (base : ExprId) :
    ∀ p : Phrase, (p.cells entry frozen name place base).length = p.offset + 1
  | literal _ => by simp [cells, offset]
  | regex _ => by simp [cells, offset]
  | reference _ => by simp [cells, offset]
  | compound _ members => by simp [cells, offset, length_cellsAll _ _ _ members]
  | unary _ member => by simp [cells, offset, length_cells _ _ _ member]

@[simp] theorem length_cellsAll (seat : Nat → Option Place) (slot : Nat) (base : ExprId) :
    ∀ ps : List Phrase, (cellsAll entry frozen seat slot base ps).length = sizeAll ps
  | [] => by simp [cellsAll, sizeAll]
  | p :: rest => by
    simp [cellsAll, sizeAll, length_cells _ _ _ p, length_cellsAll _ _ _ rest]

end

/-- The phrase is just a reference. -/
def IsReference : Phrase → Prop
  | reference _ => True
  | _ => False

/-- Only a reference depends on the slot that it sits in. -/
theorem cells_place {p : Phrase} (h : ¬ p.IsReference) (name : Text) (place place' : Option Place)
    (base : ExprId) :
    p.cells entry frozen name place base = p.cells entry frozen name place' base := by
  cases p with
  | reference target => exact absurd trivial h
  | _ => simp only [cells]

variable (entry frozen)

/-- The last cell of a block has its name, and is finished unless the phrase is a reference. -/
theorem cells_root {p : Phrase} (h : ¬ p.IsReference) (name : Text) (place : Option Place)
    (base : ExprId) : ∃ front cell, p.cells entry frozen name place base = front ++ [cell] ∧
      front.length = p.offset ∧ cell.name = name ∧ cell.form.Finished := by
  cases p with
  | literal text => exact ⟨[], _, rfl, rfl, rfl, trivial⟩
  | regex pattern => exact ⟨[], _, rfl, rfl, rfl, trivial⟩
  | reference target => exact absurd trivial h
  | compound order members => exact ⟨_, _, rfl, length_cellsAll _ _ _ members, rfl, trivial⟩
  | unary wrap member => exact ⟨_, _, rfl, length_cells _ _ _ member, rfl, trivial⟩

/-! ## Building a phrase -/

/-- Attaching the phrase in a slot tells a reference its place, and changes nothing else. -/
theorem attach_runOn (p : Phrase) (before after : List Cell) {base : ExprId}
    (hbase : before.length = base) (place : Place) :
    (Build.attach (p.root base) place).runOn
        (before ++ p.cells entry frozen [] none base ++ after).toArray =
      (.ok ⟨⟩, (before ++ p.cells entry frozen [] (some place) base ++ after).toArray) := by
  subst hbase
  rw [Build.attach, Build.runOn_bind_ok (Build.runOn_get _)]
  by_cases href : p.IsReference
  · cases p with
    | reference target =>
      simp [cells, root, offset]
    | _ => exact absurd href id
  · obtain ⟨front, cell, hcells, hfront, -, hcell⟩ :=
      cells_root entry frozen href [] none before.length
    have hget : (before ++ p.cells entry frozen [] none before.length ++ after).toArray[
        p.root before.length]? = some cell := by
      simp [hcells, root, ← hfront]
    rw [hget, cells_place href [] (some place) none]
    obtain ⟨name, form⟩ := cell
    cases form with
    | reference target place' => exact absurd hcell id
    | _ => rfl

/-- Attaching phrases to consecutive slots tells the references among them their places. -/
theorem attachMembers_runOn (parent : ExprId) : ∀ (ps : List Phrase) (slot base : Nat)
    (before after : List Cell), before.length = base →
    (Build.attachMembers parent slot (entries root base ps)).runOn
        (before ++ cellsAll entry frozen (fun _ => none) slot base ps ++ after).toArray =
      (.ok ⟨⟩, (before ++ cellsAll entry frozen (fun i => some ⟨parent, some i⟩) slot base ps ++
        after).toArray)
  | [], _, _, _, _, _ => rfl
  | p :: rest, slot, base, before, after, hbase => by
    have hfirst := attach_runOn entry frozen p before
      (cellsAll entry frozen (fun _ => none) (slot + 1) (base + p.offset + 1) rest ++ after)
      hbase ⟨parent, some slot⟩
    have hrest := attachMembers_runOn parent rest (slot + 1) (base + p.offset + 1)
      (before ++ p.cells entry frozen [] (some ⟨parent, some slot⟩) base) after
      (by simp [hbase, Nat.add_assoc])
    simp only [cellsAll, entries, Build.attachMembers, List.append_assoc] at hfirst hrest ⊢
    rw [Build.runOn_bind_ok hfirst]
    exact hrest

/-- The number of the first slot does not matter for phrases that are not attached. -/
theorem cellsAll_unseated : ∀ (slot slot' : Nat) (base : ExprId) (ps : List Phrase),
    cellsAll entry frozen (fun _ => none) slot base ps =
      cellsAll entry frozen (fun _ => none) slot' base ps
  | _, _, _, [] => by simp only [cellsAll]
  | slot, slot', base, p :: rest => by
    simp only [cellsAll]
    rw [cellsAll_unseated (slot + 1) (slot' + 1)]

mutual

/-- Building a phrase appends its block, and gives its last expression and the references
in it. -/
theorem build_runOn (name : Text) (before : List Cell) : ∀ p : Phrase,
    (p.build name).runOn before.toArray =
      (.ok (p.root before.length, p.pendings before.length),
        (before ++ p.cells root false name none before.length).toArray)
  | literal text => by
    simp only [build, Build.literal, Build.runOn_bind_ok (Build.runOn_add _ _), Build.runOn_pure,
      root, offset, pendings, cells, List.size_toArray, List.push_toArray, Nat.add_zero]
  | regex pattern => by
    simp only [build, Build.regex, Build.runOn_bind_ok (Build.runOn_add _ _), Build.runOn_pure,
      root, offset, pendings, cells, List.size_toArray, List.push_toArray, Nat.add_zero]
  | reference target => by
    simp only [build, Build.reference, Build.runOn_bind_ok (Build.runOn_add _ _), Build.runOn_pure,
      root, offset, pendings, cells, List.size_toArray, List.push_toArray, Nat.add_zero]
  | compound order members => by
    have hmembers := buildAll_runOn before members
    have hsize : before.length + sizeAll members =
        (before ++ cellsAll root false (fun _ => none) 0 before.length members).length := by simp
    have hattach := attachMembers_runOn root false (before.length + sizeAll members) members 0
      before.length before
      [⟨name, .compound order (entries root before.length members) false⟩] rfl
    rw [build, Build.runOn_bind_ok hmembers]
    simp only [Build.compound, bind_assoc, Build.runOn_bind_ok (Build.runOn_add _ _),
      List.size_toArray, List.push_toArray, ← hsize, pure_bind]
    rw [Build.runOn_bind_ok hattach, Build.runOn_pure]
    simp only [root, offset, pendings, cells, List.append_assoc]
  | unary wrap member => by
    have hmember := build_runOn [] before member
    have hsize : before.length + (member.offset + 1) =
        (before ++ member.cells root false [] none before.length).length := by simp
    have hattach := attach_runOn root false member before
      [⟨name, .unary wrap (member.root before.length)⟩] rfl
      ⟨before.length + (member.offset + 1), none⟩
    rw [build, Build.runOn_bind_ok hmember]
    simp only [Build.unary, bind_assoc, Build.runOn_bind_ok (Build.runOn_add _ _),
      List.size_toArray, List.push_toArray, ← hsize, pure_bind]
    rw [Build.runOn_bind_ok hattach, Build.runOn_pure]
    simp only [root, offset, pendings, cells, List.append_assoc]

theorem buildAll_runOn (before : List Cell) : ∀ ps : List Phrase,
    (buildAll ps).runOn before.toArray =
      (.ok (entries root before.length ps, pendingsAll before.length ps),
        (before ++ cellsAll root false (fun _ => none) 0 before.length ps).toArray)
  | [] => by
    simp only [buildAll, Build.runOn_pure, entries, pendingsAll, cellsAll, List.append_nil]
  | p :: rest => by
    have hfirst := build_runOn [] before p
    have hrest := buildAll_runOn (before ++ p.cells root false [] none before.length) rest
    rw [buildAll, Build.runOn_bind_ok hfirst]
    rw [Build.runOn_bind_ok hrest, Build.runOn_pure, List.length_append, length_cells,
      cellsAll_unseated root false 0 1]
    simp only [entries, pendingsAll, cellsAll, List.append_assoc, Nat.add_assoc, Nat.zero_add, root]

end

end Phrase

/-! ## Building definitions -/

namespace Definition

/-- The phrase that a definition is built as. -/
def phrase (d : Definition) : Phrase := d.body.wrapped

theorem phrase_not_isReference (d : Definition) : ¬ d.phrase.IsReference := by
  obtain ⟨label, body⟩ := d
  cases body <;> exact id

/-- The blocks of definitions, one after the other. -/
def cellsFrom (entry : ExprId → Phrase → ExprId) (frozen : Bool) : ExprId → List Definition → List Cell
  | _, [] => []
  | base, d :: rest =>
    d.phrase.cells entry frozen d.label none base ++
      cellsFrom entry frozen (base + d.phrase.offset + 1) rest

/-- The rules of definitions: each label with the last expression of its block. -/
def rulesFrom : ExprId → List Definition → Rules
  | _, [] => []
  | base, d :: rest => (d.label, d.phrase.root base) :: rulesFrom (base + d.phrase.offset + 1) rest

/-- The references in definitions, in the order of writing. -/
def pendingsFrom : ExprId → List Definition → List ExprId
  | _, [] => []
  | base, d :: rest => d.phrase.pendings base ++ pendingsFrom (base + d.phrase.offset + 1) rest

/-- Building definitions appends their blocks, and gives the rules and the references. -/
theorem buildAll_runOn (before : List Cell) : ∀ ds : List Definition,
    (buildAll ds).runOn before.toArray =
      (.ok (rulesFrom before.length ds, pendingsFrom before.length ds),
        (before ++ cellsFrom Phrase.root false before.length ds).toArray)
  | [] => by
    simp only [buildAll, Build.runOn_pure, rulesFrom, pendingsFrom, cellsFrom, List.append_nil]
  | d :: rest => by
    have hfirst : d.build.runOn before.toArray = _ := Phrase.build_runOn d.label before d.phrase
    have hrest := buildAll_runOn (before ++ d.phrase.cells Phrase.root false d.label none before.length)
      rest
    rw [buildAll, Build.runOn_bind_ok hfirst]
    rw [Build.runOn_bind_ok hrest, Build.runOn_pure]
    simp only [rulesFrom, pendingsFrom, cellsFrom, List.append_assoc, List.length_append,
      Phrase.length_cells, Nat.add_assoc]

end Definition

end Pegboard
