import Mathlib.Data.List.Nodup
import Pegboard.Proofs.Definition.Rendering
import Pegboard.Proofs.Match.Ends
import Pegboard.Proofs.Syntax.Rendered

/-!
# Graphs that write the same definitions

An expression of any graph is written as a phrase if what it holds without a name is written
into the phrase and a rule is written by its name (`Store.Writes`).  A sequence or a choice of
one member leaves no trace in the phrase.  So graphs of different shape can write the same
definitions.

They match to the same ends (`WritesRules.ends`), since each of them follows the other one:
where the phrases are the same, so are the forms, up to expressions of one member.  The graph
of definitions writes the definitions that it was made of (`Definition.writesRules_graph`).
-/

namespace Pegboard

namespace Store

mutual

/-- The right-hand side of an expression is written as a phrase. -/
inductive Writes (store : Store) (rules : Rules) : ExprId → Phrase → Prop where
  | literal {e : ExprId} {name text : Text} :
    store[e]? = some ⟨name, .literal text⟩ → Writes store rules e (.literal text)
  | regex {e : ExprId} {name : Text} {pattern : Regex.Pattern} :
    store[e]? = some ⟨name, .regex pattern⟩ → Writes store rules e (.regex pattern)
  | compound {e : ExprId} {name : Text} {order : Order} {members : List ExprId} {frozen : Bool}
      {ps : List Phrase} :
    store[e]? = some ⟨name, .compound order members frozen⟩ → 1 < members.length →
    WritesAll store rules members ps → Writes store rules e (.compound order ps)
  | unary {e m : ExprId} {name : Text} {wrap : Wrap} {p : Phrase} :
    store[e]? = some ⟨name, .unary wrap m⟩ → WritesSlot store rules m p →
    Writes store rules e (.unary wrap p)
  | single {e m : ExprId} {p : Phrase} :
    store.Single e m → WritesSlot store rules m p → Writes store rules e p

/-- What a slot holds is written as a phrase: a rule by its name, and an expression without a
name like its right-hand side. -/
inductive WritesSlot (store : Store) (rules : Rules) : ExprId → Phrase → Prop where
  | rule {e : ExprId} {name : Text} :
    rules.lookup name = some e → WritesSlot store rules e (.reference name)
  | nameless {e : ExprId} {p : Phrase} :
    store.nameOf e = [] → Writes store rules e p → WritesSlot store rules e p

/-- What slots hold is written as phrases, one by one. -/
inductive WritesAll (store : Store) (rules : Rules) : List ExprId → List Phrase → Prop where
  | nil : WritesAll store rules [] []
  | cons {e : ExprId} {p : Phrase} {rest : List ExprId} {ps : List Phrase} :
    WritesSlot store rules e p → WritesAll store rules rest ps →
    WritesAll store rules (e :: rest) (p :: ps)

end

/-- Each rule is written as the definition of its name. -/
def WritesRules (store : Store) (rules : Rules) (ds : List Definition) : Prop :=
  ∀ name e, rules.lookup name = some e →
    ∃ d ∈ ds, d.label = name ∧ store.Writes rules e d.body

variable {store store' : Store} {rules rules' : Rules} {e e' m : ExprId} {p : Phrase}

theorem WritesAll.forall₂ : ∀ {members : List ExprId} {ps : List Phrase},
    store.WritesAll rules members ps → List.Forall₂ (store.WritesSlot rules) members ps
  | _, _, .nil => .nil
  | _, _, .cons hfirst hrest => .cons hfirst hrest.forall₂

/-! ## Forms of phrases -/

/-- A form has the shape of a phrase, with members that are related to those of the phrase. -/
inductive Shapes (slot : ExprId → Phrase → Prop) : Form → Phrase → Prop where
  | literal (text : Text) : Shapes slot (.literal text) (.literal text)
  | regex (pattern : Regex.Pattern) : Shapes slot (.regex pattern) (.regex pattern)
  | compound (order : Order) (frozen : Bool) {members : List ExprId} {ps : List Phrase} :
    List.Forall₂ slot members ps → Shapes slot (.compound order members frozen) (.compound order ps)
  | unary (wrap : Wrap) {m : ExprId} {p : Phrase} :
    slot m p → Shapes slot (.unary wrap m) (.unary wrap p)

theorem not_shapes_reference {slot : ExprId → Phrase → Prop} {form : Form} {name : Text} :
    ¬ Shapes slot form (.reference name) := nofun

/-- Forms of the same phrase are alike. -/
theorem Shapes.alike {slot slot' : ExprId → Phrase → Prop} {R : ExprId → ExprId → Prop}
    (hR : ∀ e e' p, slot e p → slot' e' p → R e e') {form form' : Form} (h : Shapes slot form p)
    (h' : Shapes slot' form' p) : Form.Alike R form form' := by
  have hall : ∀ {members : List ExprId} {ps : List Phrase}, List.Forall₂ slot members ps →
      ∀ {members' : List ExprId}, List.Forall₂ slot' members' ps → List.Forall₂ R members members' := by
    intro members ps h
    induction h with
    | nil =>
      intro members' h'
      cases h'
      exact .nil
    | cons hfirst _ ih =>
      intro members' h'
      cases h' with
      | cons hfirst' hrest' => exact .cons (hR _ _ _ hfirst hfirst') (ih hrest')
  cases h with
  | literal text =>
    cases h'
    exact .literal text
  | regex pattern =>
    cases h'
    exact .regex pattern
  | compound order frozen hmembers =>
    cases h' with
    | compound _ frozen' hmembers' => exact .compound order frozen frozen' (hall hmembers hmembers')
  | unary wrap hmember =>
    cases h' with
    | unary _ hmember' => exact .unary wrap (hR _ _ _ hmember hmember')

/-- An expression has one member only, which is written as the phrase, or the shape of the
phrase. -/
theorem Writes.cases (h : store.Writes rules e p) :
    (∃ m, store.Single e m ∧ store.WritesSlot rules m p) ∨
      ∃ cell, store[e]? = some cell ∧ Shapes (store.WritesSlot rules) cell.form p := by
  cases h with
  | literal hcell => exact .inr ⟨_, hcell, .literal _⟩
  | regex hcell => exact .inr ⟨_, hcell, .regex _⟩
  | compound hcell _ hmembers => exact .inr ⟨_, hcell, .compound _ _ hmembers.forall₂⟩
  | unary hcell hmember => exact .inr ⟨_, hcell, .unary _ hmember⟩
  | single hsingle hmember => exact .inl ⟨_, hsingle, hmember⟩

/-- What expressions of one member come down to: the rule of a reference, or the shape of any
other phrase. -/
def Core (store : Store) (rules : Rules) (k : ExprId) (p : Phrase) : Prop :=
  (∃ name, p = .reference name ∧ rules.lookup name = some k) ∨
    ∃ cell, store[k]? = some cell ∧ Shapes (store.WritesSlot rules) cell.form p

mutual

theorem Writes.exists_core : ∀ {e : ExprId} {p : Phrase}, store.Writes rules e p →
    ∃ k, Relation.ReflTransGen store.Single e k ∧ store.Core rules k p
  | _, _, .literal hcell => ⟨_, .refl, .inr ⟨_, hcell, .literal _⟩⟩
  | _, _, .regex hcell => ⟨_, .refl, .inr ⟨_, hcell, .regex _⟩⟩
  | _, _, .compound hcell _ hmembers => ⟨_, .refl, .inr ⟨_, hcell, .compound _ _ hmembers.forall₂⟩⟩
  | _, _, .unary hcell hmember => ⟨_, .refl, .inr ⟨_, hcell, .unary _ hmember⟩⟩
  | _, _, .single hsingle hmember => by
    obtain ⟨k, hdown, hcore⟩ := hmember.exists_core
    exact ⟨k, .head hsingle hdown, hcore⟩

theorem WritesSlot.exists_core : ∀ {e : ExprId} {p : Phrase}, store.WritesSlot rules e p →
    ∃ k, Relation.ReflTransGen store.Single e k ∧ store.Core rules k p
  | _, _, .rule hlookup => ⟨_, .refl, .inl ⟨_, rfl, hlookup⟩⟩
  | _, _, .nameless _ h => h.exists_core

end

/-! ## The same ends -/

/-- An expression is written as a phrase, in a slot or as a right-hand side. -/
def Means (store : Store) (rules : Rules) (e : ExprId) (p : Phrase) : Prop :=
  store.WritesSlot rules e p ∨ store.Writes rules e p

theorem Means.exists_core (h : store.Means rules e p) :
    ∃ k, Relation.ReflTransGen store.Single e k ∧ store.Core rules k p := by
  rcases h with h | h
  · exact h.exists_core
  · exact h.exists_core

/-- Two expressions are written as the same phrase. -/
def WrittenAlike (store : Store) (rules : Rules) (store' : Store) (rules' : Rules) (e e' : ExprId) : Prop :=
  ∃ p, store.Means rules e p ∧ store'.Means rules' e' p

/-- Where one of two expressions is written like the other one, the second one follows it. -/
theorem follows_of_writes (h : store.Writes rules e p) (h' : store'.Means rules' e' p) :
    ∃ k', Relation.ReflTransGen store'.Single e' k' ∧
      ((∃ m, store.Single e m ∧ WrittenAlike store rules store' rules' m k') ∨
        ∃ cell cell', store[e]? = some cell ∧ store'[k']? = some cell' ∧
          Form.Alike (WrittenAlike store rules store' rules') cell.form cell'.form) := by
  rcases h.cases with ⟨m, hsingle, hmember⟩ | ⟨cell, hcell, hshapes⟩
  · exact ⟨e', .refl, .inl ⟨m, hsingle, p, .inl hmember, h'⟩⟩
  obtain ⟨k', hdown, ⟨name, rfl, -⟩ | ⟨cell', hcell', hshapes'⟩⟩ := h'.exists_core
  · exact absurd hshapes not_shapes_reference
  · exact ⟨k', hdown, .inr ⟨cell, cell', hcell, hcell',
      hshapes.alike (fun _ _ p h h' => ⟨p, .inl h, .inl h'⟩) hshapes'⟩⟩

section

variable {ds : List Definition} (hlabels : (ds.map Definition.label).Nodup)
  (h : store.WritesRules rules ds) (h' : store'.WritesRules rules' ds)
include hlabels h h'

/-- A graph follows another one that writes the same definitions. -/
theorem endSimulation_of_writesRules :
    EndSimulation store store' (WrittenAlike store rules store' rules') := by
  rintro e e' ⟨p, (hslot | hwrites), he'⟩
  · cases hslot with
    | @rule _ name hlookup =>
      -- Both are the rule of a name, so they are written as the definition of that name.
      obtain ⟨k', hdown, ⟨_, heq, hlookup'⟩ | ⟨_, _, hshapes⟩⟩ := he'.exists_core
      · cases heq
        obtain ⟨d, hd, hlabel, hwrites⟩ := h name e hlookup
        obtain ⟨d', hd', hlabel', hwrites'⟩ := h' name k' hlookup'
        obtain rfl : d = d' := List.inj_on_of_nodup_map hlabels hd hd' (hlabel.trans hlabel'.symm)
        obtain ⟨k'', hdown', hfollows⟩ := follows_of_writes hwrites (.inr hwrites')
        exact ⟨k'', hdown.trans hdown', hfollows⟩
      · exact absurd hshapes not_shapes_reference
    | nameless _ hwrites => exact follows_of_writes hwrites he'
  · exact follows_of_writes hwrites he'

variable [Platform]

/-- The rules of a name match to the same ends. -/
theorem WritesRules.ends [Platform.Bounded] {name : Text} (hlookup : rules.lookup name = some e)
    (hlookup' : rules'.lookup name = some e') {text : Text} {pos : Int} {stop : Option Int}
    (hends : Ends store text e pos stop) : Ends store' text e' pos stop :=
  (endSimulation_of_writesRules hlabels h h').ends
    ⟨.reference name, .inl (.rule hlookup), .inl (.rule hlookup')⟩ hends

end

end Store

/-! ## The graph of definitions -/

namespace Phrase

open Store

variable {store : Store} {rules : Rules} {link : Text → ExprId}

theorem nameOf_root {place : Option Place} {base : ExprId} {p : Phrase} {name : Text}
    (href : ¬ p.IsReference) (h : store.Holds base (p.cells (linked link) true name place base)) :
    store.nameOf (p.root base) = name := by
  obtain ⟨cell, hcell, hname, -⟩ := exists_root href h
  rw [nameOf, hcell, Option.map_some, Option.getD_some, hname]

/-- What a slot for a block holds is written as its phrase, if the block itself is. -/
theorem writesSlot_linked {place : Option Place} {base : ExprId} {p : Phrase}
    (h : store.Holds base (p.cells (linked link) true [] place base))
    (htargets : ∀ t ∈ p.targets, rules.lookup t = some (link t))
    (hwrites : ¬ p.IsReference → store.Writes rules (p.root base) p) :
    store.WritesSlot rules (linked link base p) p := by
  by_cases href : p.IsReference
  · cases p with
    | reference target => exact .rule (htargets target (by simp [targets]))
    | _ => exact absurd href id
  · rw [linked_eq_root href]
    exact .nameless (nameOf_root href h) (hwrites href)

variable [Platform]

mutual

/-- The block of a phrase is written as the phrase. -/
theorem writes_root {name : Text} {place : Option Place} {base : ExprId} :
    ∀ {p : Phrase}, ¬ p.IsReference → p.Written →
      store.Holds base (p.cells (linked link) true name place base) →
      (∀ t ∈ p.targets, rules.lookup t = some (link t)) → store.Writes rules (p.root base) p
  | literal _, _, _, h, _ => by
    simp only [cells] at h
    exact .literal h.only
  | regex _, _, _, h, _ => by
    simp only [cells] at h
    exact .regex h.only
  | reference _, href, _, _, _ => absurd trivial href
  | compound order members, _, hwritten, h, htargets => by
    simp only [cells] at h
    simp only [targets] at htargets
    refine .compound (by simpa [root, offset] using h.last) ?_ (writesAll_entries hwritten.2 h.left htargets)
    rw [length_entries]
    exact hwritten.1
  | unary wrap member, _, hwritten, h, htargets => by
    simp only [cells] at h
    simp only [targets] at htargets
    refine .unary (by simpa [root, offset] using h.last) ?_
    exact writesSlot_linked h.left htargets fun href => writes_root href hwritten.2 h.left htargets

theorem writesAll_entries {seat : Nat → Option Place} {slot : Nat} {base : ExprId} :
    ∀ {ps : List Phrase}, WrittenAll ps →
      store.Holds base (cellsAll (linked link) true seat slot base ps) →
      (∀ t ∈ targetsAll ps, rules.lookup t = some (link t)) →
      store.WritesAll rules (entries (linked link) base ps) ps
  | [], _, _, _ => .nil
  | p :: rest, hwritten, h, htargets => by
    obtain ⟨hfirst, hrest⟩ := Holds.cellsAll_cons h
    simp only [targetsAll, List.mem_append] at htargets
    have htargets' : ∀ t ∈ p.targets, rules.lookup t = some (link t) :=
      fun t ht => htargets t (.inl ht)
    exact .cons (writesSlot_linked hfirst htargets' fun href => writes_root href hwritten.1 hfirst htargets')
      (writesAll_entries hwritten.2 hrest fun t ht => htargets t (.inr ht))

end

end Phrase

namespace Definition

open Store

variable {ds : List Definition}

/-- The block of a definition is written as its body. -/
theorem writes_phrase [Platform] {store : Store} {rules : Rules} {link : Text → ExprId}
    {d : Definition} {b : Nat} (hbody : d.body.Written)
    (h : store.Holds b (d.phrase.cells (Phrase.linked link) true d.label none b))
    (htargets : ∀ t ∈ d.phrase.targets, rules.lookup t = some (link t)) :
    store.Writes rules (d.phrase.root b) d.body := by
  obtain ⟨label, body⟩ := d
  cases body with
  | reference target =>
    -- There is a sequence around a reference.
    simp only [phrase, Phrase.wrapped, Phrase.cells] at h
    have hsingle : store.Single (phrase ⟨label, .reference target⟩ |>.root b) (link target) :=
      ⟨label, .sequence, true, by
        simpa [phrase, Phrase.wrapped, Phrase.root, Phrase.offset, Phrase.entries, Phrase.linked] using h.last⟩
    exact .single hsingle (.rule (htargets target (by simp [phrase, Phrase.wrapped, Phrase.targets, Phrase.targetsAll])))
  | _ => exact Phrase.writes_root id hbody h htargets

/-- The graph of definitions writes them. -/
theorem writesRules_graph [Platform] (h : Complete ds) (hlabels : (ds.map label).Nodup)
    (hwritten : ∀ d ∈ ds, d.Written) : (graph ds).WritesRules (rulesFrom 0 ds) ds := by
  intro name e hlookup
  have hname : name ∈ ds.map label := by
    rw [← names_rulesFrom 0 ds]
    exact List.mem_map_of_mem (mem_of_lookup hlookup)
  obtain ⟨d, hd, rfl⟩ := List.mem_map.1 hname
  obtain ⟨b, hblock, hrule, -⟩ := exists_block_graph hlabels hd
  have htargets : ∀ t ∈ d.phrase.targets, (rulesFrom 0 ds).lookup t = some (ruleOf ds t) := by
    intro t ht
    rw [phrase, Phrase.targets_wrapped] at ht
    exact lookup_rulesFrom (h t (List.mem_flatMap.2 ⟨d, hd, ht⟩))
  rw [lookup_rulesFrom hname, hrule] at hlookup
  cases hlookup
  exact ⟨d, hd, rfl, writes_phrase (hwritten d hd).2 hblock htargets⟩

end Definition

end Pegboard
