import Mathlib.Data.List.Forall2
import Pegboard.Node.Listing
import Pegboard.Proofs.Match.Tiling

/-!
# Trees and their preorder

The preorder of a tree, each node with its depth, gives the tree away.  The nodes below a
node are the ones that follow it with a greater depth, so two preorders with the same depths
are those of trees of the same shape.

A relation between nodes is carried over from node to node in this way.  `Alongside R` says
that two trees have preorders of the same depths with related nodes, and `alongside_iff`
says what that means for the two roots and their children.  Likeness of trees is the case
where related nodes have the same face: text, name and kind (`same_iff_alongside`).  A tree
is thus known up to likeness by the faces of its preorder, and likeness is an equivalence.
-/

namespace Pegboard.Node

mutual

/-- The nodes of a tree in preorder with their depths, the root at the given depth. -/
def preorder (depth : Nat) : Node → List (Nat × Node)
  | ⟨origin, kind, name, full, start, stop, children⟩ =>
    (depth, ⟨origin, kind, name, full, start, stop, children⟩) :: preorderAll (depth + 1) children

/-- The nodes of trees in preorder with their depths, the roots at the given depth. -/
def preorderAll (depth : Nat) : List Node → List (Nat × Node)
  | [] => []
  | n :: rest => n.preorder depth ++ preorderAll depth rest

end

theorem preorder_eq (depth : Nat) (n : Node) :
    n.preorder depth = (depth, n) :: preorderAll (depth + 1) n.children := by
  cases n
  rw [preorder]

/-! ## What is listed in preorder -/

/-- The row of a node at a depth. -/
def row (p : Nat × Node) : Row := ⟨p.1, p.2.kind, p.2.name, p.2.start, p.2.stop⟩

/-- The line of a node at a depth. -/
def lineOf (p : Nat × Node) : Text := line p.1 p.2.kind p.2.name p.2.text

mutual

theorem rows_eq (depth : Nat) : ∀ n : Node, n.rows depth = (n.preorder depth).map row
  | ⟨_, _, _, _, _, _, children⟩ => by
    rw [rows, preorder, List.map_cons, rowsAll_eq (depth + 1) children]
    rfl

theorem rowsAll_eq (depth : Nat) : ∀ ns : List Node, rowsAll depth ns = (preorderAll depth ns).map row
  | [] => by rw [rowsAll, preorderAll, List.map_nil]
  | n :: rest => by rw [rowsAll, preorderAll, List.map_append, rows_eq depth n, rowsAll_eq depth rest]

end

mutual

theorem lines_eq (depth : Nat) : ∀ n : Node, n.lines depth = (n.preorder depth).map lineOf
  | ⟨_, _, _, _, _, _, children⟩ => by
    rw [lines, preorder, List.map_cons, linesAll_eq (depth + 1) children]
    rfl

theorem linesAll_eq (depth : Nat) :
    ∀ ns : List Node, linesAll depth ns = (preorderAll depth ns).map lineOf
  | [] => by rw [linesAll, preorderAll, List.map_nil]
  | n :: rest => by
    rw [linesAll, preorderAll, List.map_append, lines_eq depth n, linesAll_eq depth rest]

end

mutual

/-- The preorder with depths lists the nodes of the tree. -/
theorem map_snd_preorder (depth : Nat) : ∀ n : Node, (n.preorder depth).map Prod.snd = n.nodes
  | ⟨_, _, _, _, _, _, children⟩ => by
    rw [preorder, nodes, List.map_cons, map_snd_preorderAll (depth + 1) children]

theorem map_snd_preorderAll (depth : Nat) :
    ∀ ns : List Node, (preorderAll depth ns).map Prod.snd = nodesAll ns
  | [] => by rw [preorderAll, nodesAll, List.map_nil]
  | n :: rest => by
    rw [preorderAll, nodesAll, List.map_append, map_snd_preorder depth n,
      map_snd_preorderAll depth rest]

end

/-! ## Depths -/

mutual

theorem depth_le_of_mem_preorder {depth : Nat} :
    ∀ {n : Node}, ∀ p ∈ n.preorder depth, depth ≤ p.1
  | ⟨_, _, _, _, _, _, children⟩, p, hp => by
    rw [preorder] at hp
    rcases List.mem_cons.1 hp with rfl | hp
    · exact Nat.le_refl _
    · exact Nat.le_of_succ_le (depth_le_of_mem_preorderAll p hp)

theorem depth_le_of_mem_preorderAll {depth : Nat} :
    ∀ {ns : List Node}, ∀ p ∈ preorderAll depth ns, depth ≤ p.1
  | [], p, hp => by
    rw [preorderAll] at hp
    cases hp
  | n :: rest, p, hp => by
    rw [preorderAll] at hp
    rcases List.mem_append.1 hp with hp | hp
    · exact depth_le_of_mem_preorder p hp
    · exact depth_le_of_mem_preorderAll p hp

end

/-- Whether a node with its depth is below the roots at a depth. -/
def isBelow (depth : Nat) (p : Nat × Node) : Bool := decide (depth < p.1)

/-- The nodes below the first root are the ones that follow it with a greater depth. -/
theorem takeWhile_below (depth : Nat) (n : Node) (rest : List Node) :
    (preorderAll (depth + 1) n.children ++ preorderAll depth rest).takeWhile (isBelow depth) =
      preorderAll (depth + 1) n.children := by
  have hbelow : ∀ p ∈ preorderAll (depth + 1) n.children, isBelow depth p = true :=
    fun p hp => decide_eq_true (depth_le_of_mem_preorderAll p hp)
  have hrest : (preorderAll depth rest).takeWhile (isBelow depth) = [] := by
    cases rest with
    | nil => rw [preorderAll, List.takeWhile_nil]
    | cons m rest =>
      rw [preorderAll, preorder_eq, List.cons_append, List.takeWhile_cons_of_neg]
      simp [isBelow]
  rw [List.takeWhile_append_of_pos hbelow, hrest, List.append_nil]

/-! ## Trees of the same shape -/

/-- Two nodes have the same depth and are related. -/
def Level (R : Node → Node → Prop) (p q : Nat × Node) : Prop := p.1 = q.1 ∧ R p.2 q.2

/-- Two trees have preorders of the same depths, with related nodes. -/
def Alongside (R : Node → Node → Prop) (depth : Nat) (n m : Node) : Prop :=
  List.Forall₂ (Level R) (n.preorder depth) (m.preorder depth)

theorem forall₂_takeWhile {R : Node → Node → Prop} (depth : Nat) {ps qs : List (Nat × Node)}
    (h : List.Forall₂ (Level R) ps qs) :
    List.Forall₂ (Level R) (ps.takeWhile (isBelow depth)) (qs.takeWhile (isBelow depth)) := by
  induction h with
  | nil => exact .nil
  | @cons p q ps qs hpq _ ih =>
    have hsame : isBelow depth p = isBelow depth q := by rw [isBelow, isBelow, hpq.1]
    rw [List.takeWhile_cons, List.takeWhile_cons, hsame]
    split
    · exact .cons hpq ih
    · exact .nil

/-- Two roots in a row are alongside each other if their nodes and all that follows are. -/
theorem alongside_cons {R : Node → Node → Prop} {depth : Nat} {n m : Node} {ns ms : List Node} :
    List.Forall₂ (Level R) (preorderAll depth (n :: ns)) (preorderAll depth (m :: ms)) ↔
      Alongside R depth n m ∧ List.Forall₂ (Level R) (preorderAll depth ns) (preorderAll depth ms) := by
  constructor
  · intro h
    rw [preorderAll, preorderAll, preorder_eq, preorder_eq, List.cons_append, List.cons_append] at h
    obtain ⟨hroot, htail⟩ := List.forall₂_cons.1 h
    -- What belongs to the first root is as long on both sides, so the split is at the same place.
    have hbelow := forall₂_takeWhile depth htail
    rw [takeWhile_below, takeWhile_below] at hbelow
    have hrest := List.forall₂_drop (preorderAll (depth + 1) n.children).length htail
    rw [List.drop_left, hbelow.length_eq, List.drop_left] at hrest
    refine ⟨?_, hrest⟩
    rw [Alongside, preorder_eq, preorder_eq]
    exact .cons hroot hbelow
  · rintro ⟨hfirst, hrest⟩
    rw [preorderAll, preorderAll]
    exact List.rel_append hfirst hrest

theorem alongside_all {R : Node → Node → Prop} {depth : Nat} : ∀ {ns ms : List Node},
    List.Forall₂ (Level R) (preorderAll depth ns) (preorderAll depth ms) ↔
      List.Forall₂ (Alongside R depth) ns ms
  | [], [] => by simp [preorderAll]
  | [], m :: ms => by simp [preorderAll, preorder_eq]
  | n :: ns, [] => by simp [preorderAll, preorder_eq]
  | n :: ns, m :: ms => by rw [alongside_cons, alongside_all, List.forall₂_cons]

/-- Two trees are alongside each other if their roots are related and their children are
alongside each other, one by one. -/
theorem alongside_iff {R : Node → Node → Prop} {depth : Nat} {n m : Node} :
    Alongside R depth n m ↔
      R n m ∧ List.Forall₂ (Alongside R (depth + 1)) n.children m.children := by
  rw [Alongside, preorder_eq, preorder_eq, List.forall₂_cons, alongside_all, Level]
  exact and_congr_left fun _ => ⟨fun h => h.2, fun h => ⟨rfl, h⟩⟩

theorem Alongside.root {R : Node → Node → Prop} {depth : Nat} {n m : Node}
    (h : Alongside R depth n m) : R n m :=
  (alongside_iff.1 h).1

/-- Where related nodes agree in something, the two preorders do. -/
theorem alongside_iff_map {α : Type} {f : Node → α} {depth : Nat} {n m : Node} :
    Alongside (fun a b => f a = f b) depth n m ↔
      (n.preorder depth).map (Prod.map id f) = (m.preorder depth).map (Prod.map id f) := by
  rw [← List.forall₂_eq_eq_eq, List.forall₂_map_left_iff, List.forall₂_map_right_iff]
  simp only [Prod.map, id_eq, Prod.mk.injEq]
  exact Iff.rfl

/-! ## Likeness -/

/-- What likeness asks of one node. -/
def face (n : Node) : Text × Text × Kind := (n.text, n.name, n.kind)

theorem sameAll_iff : ∀ {ns ms : List Node},
    sameAll ns ms = true ↔ List.Forall₂ (fun n m : Node => n.same m = true) ns ms
  | [], [] => by simp [sameAll]
  | [], _ :: _ => by simp [sameAll]
  | _ :: _, [] => by simp [sameAll]
  | n :: ns, m :: ms => by rw [sameAll, Bool.and_eq_true, sameAll_iff, List.forall₂_cons]

theorem same_iff {n m : Node} : n.same m = true ↔
    n.face = m.face ∧ List.Forall₂ (fun a b : Node => a.same b = true) n.children m.children := by
  cases n
  cases m
  simp only [same, Bool.and_eq_true, beq_iff_eq, sameAll_iff, face, text, Prod.mk.injEq, and_assoc]

/-- Trees are alike if their nodes have the same faces, in preorder with the same depths. -/
theorem same_iff_alongside {depth : Nat} {n m : Node} :
    n.same m = true ↔ Alongside (fun a b => a.face = b.face) depth n m := by
  induction n using induct generalizing depth m with
  | _ n ih =>
    rw [same_iff, alongside_iff]
    refine and_congr_right fun _ => ?_
    constructor <;> intro h
    · refine List.Forall₂.imp (fun a b hab => ?_) ((List.forall₂_and_left _ _).2 ⟨ih, h⟩)
      exact hab.1.1 hab.2
    · refine List.Forall₂.imp (fun a b hab => ?_) ((List.forall₂_and_left _ _).2 ⟨ih, h⟩)
      exact hab.1.2 hab.2

/-- The faces of the preorder, which are the same for trees that are alike and for no others. -/
theorem same_iff_faces {n m : Node} : n.same m = true ↔
    (n.preorder 0).map (Prod.map id face) = (m.preorder 0).map (Prod.map id face) :=
  same_iff_alongside.trans alongside_iff_map

/-- Likeness is an equivalence of trees. -/
theorem equivalence_same : Equivalence fun n m : Node => n.same m = true where
  refl _ := same_iff_faces.2 rfl
  symm h := same_iff_faces.2 (same_iff_faces.1 h).symm
  trans h h' := same_iff_faces.2 ((same_iff_faces.1 h).trans (same_iff_faces.1 h'))

end Pegboard.Node
