import Pegboard.Match
import Pegboard.Proofs.Regex.Extent

/-!
# One level of a match

`matchAt` at a depth calls itself at the depth below.  `matchForm` is one level of it
with those calls taken as a function, and `matchAt_succ` says that the two agree.
What a match keeps is then proved for one level and carried over all depths by
induction.

Two such facts stand here.  A match that ends gives the same answer at every greater
depth (`matchAt_mono`).  And it begins where it was asked to and ends there or further
on, but not past the end of the text unless it began there (`matchAt_spans`).
-/

namespace Pegboard.Store

/-- The node of an expression, from where it ends and its children. -/
def nodeOf (text : Text) (e : ExprId) (cell : Cell) (pos : Int) (o : Int × List Node) : Node :=
  ⟨e, cell.kind, cell.name, text, pos, o.1, o.2⟩

/-- One level of a match: where a form ends and its children, if it matches.  `step`
matches the members. -/
def matchForm [Platform] (text : Text) (step : ExprId → Int → Outcome) (pos : Int) :
    Form → Except Error (Option (Int × List Node))
  | .literal piece => .ok (if text.startsAt piece pos then some (pos + piece.length, []) else none)
  | .regex pattern =>
    .ok ((pattern.matchLength? (text.rest pos)).map fun length : Nat => (pos + length, []))
  | .compound .sequence members _ =>
    (matchAll step members pos).map (Option.map fun (nodes, stop) => (stop, nodes))
  | .compound .choice members _ =>
    (matchFirst step members pos).map (Option.map fun child => (child.stop, [child]))
  | .unary .lookahead member => (step member pos).map (Option.map fun _ => (pos, []))
  | .unary .negation member =>
    (step member pos).map fun
      | none => some (pos, [])
      | some _ => none
  | .unary .optional member =>
    (step member pos).map fun
      | none => some (pos, [])
      | some child => some (child.stop, [child])
  | .unary .star member =>
    (matchRepeat (step member) (roundsFrom text pos) pos).map fun nodes =>
      some (chainStop pos nodes, nodes)
  | .unary (.plus least) member =>
    (matchRepeat (step member) (roundsFrom text pos) pos).map fun nodes =>
      if nodes.length < least then none else some (chainStop pos nodes, nodes)
  | .reference target _ => .error (.referenceReached target)
  | .unknown => .error .unknownExpression

theorem matchAt_none [Platform] {store : Store} {e : ExprId} (h : store[e]? = none) (text : Text)
    (depth : Nat) (pos : Int) :
    store.matchAt text (depth + 1) e pos = .error .unknownExpression := by
  simp only [matchAt, h]

theorem matchAt_succ [Platform] {store : Store} {e : ExprId} {cell : Cell}
    (h : store[e]? = some cell) (text : Text) (depth : Nat) (pos : Int) :
    store.matchAt text (depth + 1) e pos =
      (matchForm text (store.matchAt text depth) pos cell.form).map
        (Option.map (nodeOf text e cell pos)) := by
  simp only [matchAt, h]
  rcases hform : cell.form with piece | pattern | ⟨order, members, frozen⟩ | ⟨wrap, member⟩ |
    ⟨target, place⟩ | _
  · simp only [matchForm, Except.map]
    split <;> rfl
  · simp only [matchForm, Except.map]
    cases pattern.matchLength? (text.rest pos) <;> rfl
  · cases order with
    | sequence =>
      simp only [matchForm]
      rcases matchAll (store.matchAt text depth) members pos with err | _ | ⟨nodes, stop⟩ <;> rfl
    | choice =>
      simp only [matchForm]
      rcases matchFirst (store.matchAt text depth) members pos with err | _ | child <;> rfl
  · cases wrap with
    | lookahead =>
      simp only [matchForm]
      rcases store.matchAt text depth member pos with err | _ | child <;> rfl
    | negation =>
      simp only [matchForm]
      rcases store.matchAt text depth member pos with err | _ | child <;> rfl
    | optional =>
      simp only [matchForm]
      rcases store.matchAt text depth member pos with err | _ | child <;> rfl
    | star =>
      simp only [matchForm]
      rcases matchRepeat (store.matchAt text depth member) (roundsFrom text pos) pos with
        err | nodes <;> rfl
    | plus least =>
      simp only [matchForm]
      rcases matchRepeat (store.matchAt text depth member) (roundsFrom text pos) pos with
        err | nodes
      · rfl
      · simp only [Except.map]
        split <;> rfl
  · rfl
  · rfl

/-! ## Greater depths -/

/-- A value that was mapped without an error comes from one. -/
theorem map_eq_ok {ε α β : Type} {f : α → β} {x : Except ε α} {b : β} (h : x.map f = .ok b) :
    ∃ a, x = .ok a ∧ f a = b := by
  cases x with
  | error err => cases h
  | ok a => exact ⟨a, rfl, Except.ok.inj h⟩

/-- One way to match members answers like another one wherever that one answers. -/
def Extends (step step' : ExprId → Int → Outcome) : Prop :=
  ∀ e pos r, step e pos = .ok r → step' e pos = .ok r

section Mono

variable {step step' : ExprId → Int → Outcome} (hs : Extends step step')
include hs

theorem matchAll_mono : ∀ {members : List ExprId} {pos : Int} {r : Option (List Node × Int)},
    matchAll step members pos = .ok r → matchAll step' members pos = .ok r
  | [], _, _, h => h
  | e :: rest, pos, r, h => by
    simp only [matchAll] at h ⊢
    rcases he : step e pos with err | _ | node <;> rw [he] at h
    · cases h
    · rw [hs e pos none he]
      exact h
    · rw [hs e pos (some node) he]
      dsimp only at h ⊢
      rcases hr : matchAll step rest node.stop with err | r' <;> simp only [hr] at h
      · cases h
      · rw [matchAll_mono hr]
        exact h

theorem matchFirst_mono : ∀ {members : List ExprId} {pos : Int} {r : Option Node},
    matchFirst step members pos = .ok r → matchFirst step' members pos = .ok r
  | [], _, _, h => h
  | e :: rest, pos, r, h => by
    simp only [matchFirst] at h ⊢
    rcases he : step e pos with err | _ | node <;> rw [he] at h
    · cases h
    · rw [hs e pos none he]
      exact matchFirst_mono h
    · rw [hs e pos (some node) he]
      exact h

theorem matchRepeat_mono {e : ExprId} : ∀ {rounds : Nat} {pos : Int} {nodes : List Node},
    matchRepeat (step e) rounds pos = .ok nodes → matchRepeat (step' e) rounds pos = .ok nodes
  | 0, _, _, h => h
  | rounds + 1, pos, nodes, h => by
    simp only [matchRepeat] at h ⊢
    rcases he : step e pos with err | _ | node <;> rw [he] at h
    · cases h
    · rw [hs e pos none he]
      exact h
    · rw [hs e pos (some node) he]
      dsimp only at h ⊢
      split at h
      · next hstill =>
        rw [if_pos hstill]
        exact h
      · next hmoved =>
        rw [if_neg hmoved]
        rcases hr : matchRepeat (step e) rounds node.stop with err | r' <;> simp only [hr] at h
        · cases h
        · rw [matchRepeat_mono hr]
          exact h

theorem matchForm_mono [Platform] {text : Text} {pos : Int} {form : Form}
    {o : Option (Int × List Node)} (h : matchForm text step pos form = .ok o) :
    matchForm text step' pos form = .ok o := by
  unfold matchForm at h ⊢
  split at h
  · exact h
  · exact h
  · obtain ⟨r, hr, rfl⟩ := map_eq_ok h
    rw [matchAll_mono hs hr]
    rfl
  · obtain ⟨r, hr, rfl⟩ := map_eq_ok h
    rw [matchFirst_mono hs hr]
    rfl
  · obtain ⟨r, hr, rfl⟩ := map_eq_ok h
    rw [hs _ _ _ hr]
    rfl
  · obtain ⟨r, hr, rfl⟩ := map_eq_ok h
    rw [hs _ _ _ hr]
    rfl
  · obtain ⟨r, hr, rfl⟩ := map_eq_ok h
    rw [hs _ _ _ hr]
    rfl
  · obtain ⟨r, hr, rfl⟩ := map_eq_ok h
    rw [matchRepeat_mono hs hr]
    rfl
  · obtain ⟨r, hr, rfl⟩ := map_eq_ok h
    rw [matchRepeat_mono hs hr]
    rfl
  · cases h
  · cases h

end Mono

theorem matchAt_extends_succ [Platform] (store : Store) (text : Text) :
    ∀ depth, Extends (store.matchAt text depth) (store.matchAt text (depth + 1))
  | 0, _, _, _, h => by cases h
  | depth + 1, e, pos, r, h => by
    rcases hc : store[e]? with _ | cell
    · rw [matchAt_none hc] at h
      cases h
    · rw [matchAt_succ hc] at h ⊢
      obtain ⟨o, ho, rfl⟩ := map_eq_ok h
      rw [matchForm_mono (matchAt_extends_succ store text depth) ho]
      rfl

/-- A match that ends gives the same answer at every greater depth. -/
theorem matchAt_mono [Platform] {store : Store} {text : Text} {e : ExprId} {pos : Int}
    {r : Option Node} {depth depth' : Nat} (hle : depth ≤ depth')
    (h : store.matchAt text depth e pos = .ok r) :
    store.matchAt text depth' e pos = .ok r := by
  induction hle with
  | refl => exact h
  | step _ ih => exact matchAt_extends_succ store text _ e pos r ih

/-! ## Where a match ends -/

/-- An offset at which a match from `pos` may end. -/
def EndsFrom (text : Text) (pos stop : Int) : Prop := pos ≤ stop ∧ stop ≤ max pos text.length

/-- Every node begins where it was asked to and ends at an offset that it may. -/
def Spans (text : Text) (step : ExprId → Int → Outcome) : Prop :=
  ∀ e pos node, step e pos = .ok (some node) → node.start = pos ∧ EndsFrom text pos node.stop

theorem EndsFrom.refl (text : Text) (pos : Int) : EndsFrom text pos pos :=
  ⟨Int.le_refl pos, Int.le_max_left _ _⟩

theorem EndsFrom.trans {text : Text} {a b c : Int} (h₁ : EndsFrom text a b)
    (h₂ : EndsFrom text b c) : EndsFrom text a c := by
  unfold EndsFrom at *
  omega

theorem length_rest (text : Text) (pos : Int) :
    ((text.rest pos).length : Int) ≤ max 0 (max pos text.length - pos) := by
  simp only [Text.rest, Text.index, List.length_drop]
  split <;> omega

theorem endsFrom_add {text : Text} {pos : Int} {length : Nat}
    (h : length ≤ (text.rest pos).length) : EndsFrom text pos (pos + length) := by
  have := length_rest text pos
  constructor <;> omega

section Spans

variable {text : Text} {step : ExprId → Int → Outcome} (hs : Spans text step)
include hs

theorem matchAll_spans : ∀ {members : List ExprId} {pos : Int} {nodes : List Node} {stop : Int},
    matchAll step members pos = .ok (some (nodes, stop)) → EndsFrom text pos stop
  | [], pos, _, _, h => by
    cases h
    exact EndsFrom.refl text pos
  | e :: rest, pos, nodes, stop, h => by
    simp only [matchAll] at h
    rcases he : step e pos with err | _ | node <;> rw [he] at h
    · cases h
    · cases h
    · rcases hr : matchAll step rest node.stop with err | _ | ⟨more, last⟩ <;> simp only [hr] at h
      · cases h
      · cases h
      · cases h
        exact (hs e pos node he).2.trans (matchAll_spans hr)

theorem matchFirst_spans : ∀ {members : List ExprId} {pos : Int} {node : Node},
    matchFirst step members pos = .ok (some node) → EndsFrom text pos node.stop
  | [], _, _, h => by cases h
  | e :: rest, pos, node, h => by
    simp only [matchFirst] at h
    rcases he : step e pos with err | _ | first <;> rw [he] at h
    · cases h
    · exact matchFirst_spans h
    · cases h
      exact (hs e pos node he).2

theorem matchRepeat_spans {e : ExprId} : ∀ {rounds : Nat} {pos : Int} {nodes : List Node},
    matchRepeat (step e) rounds pos = .ok nodes → EndsFrom text pos (chainStop pos nodes)
  | 0, pos, _, h => by
    cases h
    exact EndsFrom.refl text pos
  | rounds + 1, pos, nodes, h => by
    simp only [matchRepeat] at h
    rcases he : step e pos with err | _ | node <;> rw [he] at h
    · cases h
    · cases h
      exact EndsFrom.refl text pos
    · dsimp only at h
      split at h
      · cases h
        exact EndsFrom.refl text pos
      · rcases hr : matchRepeat (step e) rounds node.stop with err | more <;> simp only [hr] at h
        · cases h
        · cases h
          have hchain : chainStop pos (node :: more) = chainStop node.stop more := by
            cases more with
            | nil => rfl
            | cons m ms =>
              simp only [chainStop, List.getLast?_cons]
              rfl
          rw [hchain]
          exact (hs e pos node he).2.trans (matchRepeat_spans hr)

theorem matchForm_spans [Platform] [Platform.Bounded] {pos : Int} {form : Form}
    {o : Int × List Node} (h : matchForm text step pos form = .ok (some o)) :
    EndsFrom text pos o.1 := by
  unfold matchForm at h
  split at h
  · next piece =>
    split at h
    · next hstarts =>
      cases h
      simp only [Text.startsAt, Bool.and_eq_true] at hstarts
      exact endsFrom_add (List.isPrefixOf_iff_prefix.1 hstarts.1).length_le
    · cases h
  · next pattern =>
    obtain ⟨length, hlength, rfl⟩ := Option.map_eq_some_iff.1 (Except.ok.inj h)
    exact endsFrom_add (Regex.Pattern.matchLength_le hlength)
  · obtain ⟨r, hr, ho⟩ := map_eq_ok h
    obtain ⟨⟨nodes, stop⟩, rfl, rfl⟩ := Option.map_eq_some_iff.1 ho
    exact matchAll_spans hs hr
  · obtain ⟨r, hr, ho⟩ := map_eq_ok h
    obtain ⟨node, rfl, rfl⟩ := Option.map_eq_some_iff.1 ho
    exact matchFirst_spans hs hr
  · obtain ⟨r, hr, ho⟩ := map_eq_ok h
    obtain ⟨node, rfl, rfl⟩ := Option.map_eq_some_iff.1 ho
    exact EndsFrom.refl text pos
  · obtain ⟨_ | node, hr, ho⟩ := map_eq_ok h
    · cases ho
      exact EndsFrom.refl text pos
    · cases ho
  · obtain ⟨_ | node, hr, ho⟩ := map_eq_ok h
    · cases ho
      exact EndsFrom.refl text pos
    · cases ho
      exact (hs _ _ _ hr).2
  · obtain ⟨nodes, hr, ho⟩ := map_eq_ok h
    cases ho
    exact matchRepeat_spans hs hr
  · obtain ⟨nodes, hr, ho⟩ := map_eq_ok h
    split at ho
    · cases ho
    · cases ho
      exact matchRepeat_spans hs hr
  · cases h
  · cases h

end Spans

/-- A match begins where it was asked to, and ends there or further on, but past the
end of the text only if it began there. -/
theorem matchAt_spans [Platform] [Platform.Bounded] (store : Store) (text : Text) :
    ∀ depth, Spans text (store.matchAt text depth)
  | 0, _, _, _, h => by cases h
  | depth + 1, e, pos, node, h => by
    rcases hc : store[e]? with _ | cell
    · rw [matchAt_none hc] at h
      cases h
    · rw [matchAt_succ hc] at h
      obtain ⟨o, ho, hnode⟩ := map_eq_ok h
      obtain ⟨o, rfl, rfl⟩ := Option.map_eq_some_iff.1 hnode
      exact ⟨rfl, matchForm_spans (matchAt_spans store text depth) ho⟩

end Pegboard.Store
