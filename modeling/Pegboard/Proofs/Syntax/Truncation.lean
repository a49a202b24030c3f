import Pegboard.Proofs.Syntax.Language
import Pegboard.Proofs.Syntax.Relayout

/-!
# What is read is read alone

Reading a definition text stops somewhere, and what was read may be cut off there.  The part
before the cut is then read to its end, as the very same rules (`readRules_alone`).

A token, a blank or a comment ends before a character that does not go on with it, or where
the text ends.  So cutting the text does not change how it splits into pieces (`Cuts.alone`).
The pieces of rules are read as the same rules but for the layout, and the layout is that of
the pieces (`Spelling.eq_of_unlaid`).
-/

namespace Pegboard.Syntax

open Regex

/-! ## Layout before a cut -/

/-- A text is empty or starts like another one. -/
def StartsLike (y y' : Text) : Prop := ∀ c, y'.head? = some c → y.head? = some c

theorem StartsLike.append {y y' : Text} (h : StartsLike y y') (x : Text) : StartsLike (x ++ y) (x ++ y') := by
  cases x with
  | nil => exact h
  | cons c x => exact fun _ hd => hd

theorem startsLike_append (x y : Text) : StartsLike (x ++ y) x := by
  cases x with
  | nil => exact nofun
  | cons c x => exact fun _ hd => hd

/-- No layout starts where there is neither white space nor the sign of a comment. -/
theorem readBlank_eq_none {s : Text} :
    readBlank s = none ↔ ∀ c, s.head? = some c → space.holds c = false ∧ c ≠ '#' := by
  cases s with
  | nil => exact ⟨fun _ => nofun, fun _ => rfl⟩
  | cons c s =>
    simp only [List.head?_cons, Option.some.injEq, forall_eq']
    refine ⟨fun h => ?_, fun h => readBlank_sign h.1 h.2 s⟩
    rw [readBlank] at h
    by_cases hspace : space.holds c = true
    · rw [dif_pos hspace] at h
      cases h
    · by_cases hhash : c = '#'
      · rw [dif_neg hspace, if_pos hhash] at h
        cases h
      · exact ⟨Bool.not_eq_true _ ▸ hspace, hhash⟩

theorem readBlank_alone {s y y' : Text} {b : Blank} (h : readBlank s = some (b, y)) (hy : StartsLike y y') :
    readBlank (b.text ++ y') = some (b, y') := by
  cases s with
  | nil => cases h
  | cons c s =>
    rw [readBlank] at h
    split at h
    · next hspace =>
      cases h
      obtain ⟨htake, hdrop⟩ := takeWhile_run (fun _ => takeWhile_ok) fun d hd => head?_dropWhile (hy d hd)
      rw [Blank.text, List.cons_append, readBlank, dif_pos hspace, hdrop]
      simp only [htake]
    · next hspace =>
      split at h
      · next hhash =>
        cases h
        obtain ⟨htake, hdrop⟩ := takeWhile_run (fun _ => takeWhile_ok) fun d hd => head?_dropWhile (hy d hd)
        rw [Blank.text, List.cons_append, readBlank, dif_neg (hhash ▸ hspace), if_pos rfl, hdrop]
        simp only [htake]
      · cases h

theorem readLayout_alone {y y' : Text} {layout : Layout} (hy : StartsLike y y') : ∀ {s : Text},
    readLayout s = (layout, y) → readLayout (Layout.text layout ++ y') = (layout, y') := by
  induction layout with
  | nil =>
    intro s h
    have hnone := readBlank_readLayout s
    rw [h, readBlank_eq_none] at hnone
    exact readLayout_of_none (readBlank_eq_none.2 fun c hc => hnone c (hy c hc))
  | cons b layout ih =>
    intro s h
    obtain ⟨s', hblank, hlayout⟩ := readLayout_cons h
    have hs' := readLayout_text s'
    rw [hlayout] at hs'
    have hread := readBlank_alone hblank (hs' ▸ hy.append (Layout.text layout))
    rw [Layout.text, List.flatMap_cons, List.append_assoc, ← Layout.text, readLayout,
      many_cons readBlank_text Blank.text_ne_nil hread, ← readLayout, ih hlayout]

/-! ## Pieces before a cut -/

/-- What is cut into pieces is cut into the same pieces alone, without what came after it. -/
theorem Cuts.alone {s rest : Text} {ps : List Piece} (h : Cuts s ps rest) : Cuts (textOf ps) ps [] := by
  induction h with
  | nil => exact .nil []
  | @cons s s' rest t ps token more ih =>
    have hs' := readLayout_text s'
    have hstarts : StartsLike (readLayout s').2 (textOf ps) := by
      rw [more.text_eq]
      exact startsLike_append _ _
    have hlayout : readLayout (Layout.text (readLayout s').1 ++ textOf ps) = ((readLayout s').1, textOf ps) :=
      readLayout_alone hstarts rfl
    rw [token.text] at token
    have htoken : t.Reads (t.text ++ (Layout.text (readLayout s').1 ++ textOf ps)) _ :=
      Token.reads_iff.2 fun c hc => Token.reads_iff.1 token c (hs' ▸ hstarts.append _ c hc)
    have hcuts := Cuts.cons htoken (show Cuts (readLayout _).2 ps [] by rwa [hlayout])
    rw [hlayout] at hcuts
    rwa [textOf_cons]

/-- A text is cut into pieces up to its end in one way only. -/
theorem Cuts.unique {s : Text} {ps : List Piece} (h : Cuts s ps []) : ∀ {qs : List Piece},
    Cuts s qs [] → ps = qs := by
  have hne : ∀ {s : Text} {p : Piece} {ps : List Piece}, Cuts s (p :: ps) [] → s ≠ [] := by
    intro s p ps hcuts
    rw [hcuts.text_eq, List.append_nil]
    exact textOf_ne_nil (List.cons_ne_nil p ps)
  induction ps generalizing s with
  | nil =>
    intro qs h'
    cases qs with
    | nil => rfl
    | cons q qs => exact absurd h.text_eq (hne h')
  | cons p ps ih =>
    intro qs h'
    cases qs with
    | nil => exact absurd h'.text_eq (hne h)
    | cons q qs =>
      cases h with
      | @cons _ s₁ _ _ _ token more =>
        cases h' with
        | @cons _ s₂ _ _ _ token' more' =>
          obtain ⟨rfl, rfl⟩ := Prod.mk.inj (Option.some.inj (token.readToken.symm.trans token'.readToken))
          rw [ih more more']

/-! ## Spellings with the same pieces -/

theorem Spelling.length_pieces_unlaid : {r : Rank} → (c : Spelling r) → c.unlaid.pieces.length = c.pieces.length
  | _, reference _ _ | _, literal _ _ | _, regex _ _ _ => rfl
  | _, group _ inner _ => by simp [unlaid, pieces, length_pieces_unlaid inner]
  | _, negation member | _, lookahead member | _, quantified member _ _ => by
    simp [unlaid, pieces, length_pieces_unlaid member]
  | _, plain atom => length_pieces_unlaid atom
  | _, last term => length_pieces_unlaid term
  | _, more term rest => by simp [unlaid, pieces, length_pieces_unlaid term, length_pieces_unlaid rest]
  | _, lastBranch _ terms => by simp [unlaid, pieces, length_pieces_unlaid terms]
  | _, moreBranches _ terms rest => by
    simp [unlaid, pieces, length_pieces_unlaid terms, length_pieces_unlaid rest]
  | _, single terms => length_pieces_unlaid terms
  | _, choice first rest => by simp [unlaid, pieces, length_pieces_unlaid first, length_pieces_unlaid rest]

/-- Spellings that differ only in layout have as many pieces. -/
theorem Spelling.length_pieces_eq {r : Rank} {c c' : Spelling r} (h : c'.unlaid = c.unlaid) :
    c'.pieces.length = c.pieces.length := by
  rw [← length_pieces_unlaid, h, length_pieces_unlaid]

/-- A spelling is made up of what it is without layout and of its pieces. -/
theorem Spelling.eq_of_unlaid {r : Rank} {c : Spelling r} : ∀ {c' : Spelling r},
    c'.unlaid = c.unlaid → c'.pieces = c.pieces → c' = c := by
  induction c with
  | reference label after | literal quoted after | regex quoted flags after =>
    intro c' h hp
    cases c' <;> simp_all [unlaid, pieces]
  | group before inner after ih =>
    intro c' h hp
    cases c' with
    | group before' inner' after' =>
      simp only [unlaid, group.injEq, true_and, and_true] at h
      simp only [pieces, List.cons.injEq, Piece.mk.injEq, true_and] at hp
      obtain ⟨hinner, hafter⟩ := List.append_inj hp.2 (length_pieces_eq h)
      simp only [List.cons.injEq, Piece.mk.injEq, true_and, and_true] at hafter
      rw [hp.1, ih h hinner, hafter]
    | _ => cases h
  | negation member ih =>
    intro c' h hp
    cases c' with
    | negation member' => rw [ih (negation.inj h) (List.cons.inj hp).2]
    | _ => cases h
  | lookahead member ih =>
    intro c' h hp
    cases c' with
    | lookahead member' => rw [ih (lookahead.inj h) (List.cons.inj hp).2]
    | _ => cases h
  | quantified member quantifier after ih =>
    intro c' h hp
    cases c' with
    | quantified member' quantifier' after' =>
      simp only [unlaid, quantified.injEq, and_true] at h
      obtain ⟨hmember, hafter⟩ := List.append_inj hp (length_pieces_eq h.1)
      simp only [List.cons.injEq, Piece.mk.injEq, and_true] at hafter
      rw [ih h.1 hmember, h.2, hafter.2]
    | _ => cases h
  | plain atom ih =>
    intro c' h hp
    cases c' with
    | plain atom' => rw [ih (plain.inj h) hp]
    | _ => cases h
  | last term ih =>
    intro c' h hp
    cases c' with
    | last term' => rw [ih (last.inj h) hp]
    | _ => cases h
  | more term rest ih ih' =>
    intro c' h hp
    cases c' with
    | more term' rest' =>
      obtain ⟨hterm, hrest⟩ := more.inj h
      obtain ⟨hp, hp'⟩ := List.append_inj hp (length_pieces_eq hterm)
      rw [ih hterm hp, ih' hrest hp']
    | _ => cases h
  | lastBranch before terms ih =>
    intro c' h hp
    cases c' with
    | lastBranch before' terms' =>
      simp only [unlaid, lastBranch.injEq, true_and] at h
      simp only [pieces, List.cons.injEq, Piece.mk.injEq, true_and] at hp
      rw [hp.1, ih h hp.2]
    | _ => cases h
  | moreBranches before terms rest ih ih' =>
    intro c' h hp
    cases c' with
    | moreBranches before' terms' rest' =>
      simp only [unlaid, moreBranches.injEq, true_and] at h
      simp only [pieces, List.cons.injEq, Piece.mk.injEq, true_and] at hp
      obtain ⟨hterms, hrest⟩ := List.append_inj hp.2 (length_pieces_eq h.1)
      rw [hp.1, ih h.1 hterms, ih' h.2 hrest]
    | _ => cases h
  | single terms ih =>
    intro c' h hp
    cases c' with
    | single terms' => rw [ih (single.inj h) hp]
    | _ => cases h
  | choice first rest ih ih' =>
    intro c' h hp
    cases c' with
    | choice first' rest' =>
      obtain ⟨hfirst, hrest⟩ := choice.inj h
      obtain ⟨hp, hp'⟩ := List.append_inj hp (length_pieces_eq hfirst)
      rw [ih hfirst hp, ih' hrest hp']
    | _ => cases h

theorem RuleSpelling.eq_of_unlaid {r r' : RuleSpelling} (h : r'.unlaid = r.unlaid)
    (hp : r'.pieces = r.pieces) : r' = r := by
  obtain ⟨label, afterLabel, afterEquals, body⟩ := r
  obtain ⟨label', afterLabel', afterEquals', body'⟩ := r'
  simp only [unlaid, mk.injEq, true_and] at h
  simp only [pieces, List.cons.injEq, Piece.mk.injEq, true_and] at hp
  rw [h.1, hp.1.2, hp.2.1, Spelling.eq_of_unlaid h.2 hp.2.2]

/-- Rules are made up of what they are without layout and of their pieces. -/
theorem eq_of_map_unlaid : ∀ {rs rs' : List RuleSpelling},
    rs'.map RuleSpelling.unlaid = rs.map RuleSpelling.unlaid →
    rs'.flatMap RuleSpelling.pieces = rs.flatMap RuleSpelling.pieces → rs' = rs
  | [], [], _, _ => rfl
  | r :: rs, r' :: rs', h, hp => by
    obtain ⟨hr, hrs⟩ := List.cons.inj h
    have hlength : r'.pieces.length = r.pieces.length := by
      have hbody := Spelling.length_pieces_eq (congrArg RuleSpelling.body hr)
      simp only [RuleSpelling.pieces, List.length_cons, hbody]
    rw [List.flatMap_cons, List.flatMap_cons] at hp
    obtain ⟨hp, hp'⟩ := List.append_inj hp hlength
    rw [RuleSpelling.eq_of_unlaid hr hp, eq_of_map_unlaid hrs hp']

/-! ## Rules before a cut -/

/-- What is read of a definition text is read alone, without what came after it. -/
theorem readRules_alone {s rest : Text} {r : RulesSpelling} (h : readRules true s = some (r, rest)) :
    readRules true r.text = some (r, []) := by
  have hcuts := (takes_rules h).1
  have hlayout : readLayout r.text = (r.before, textOf r.pieces) := by
    have hstarts : StartsLike (readLayout s).2 (textOf r.pieces) := by
      rw [hcuts.text_eq]
      exact startsLike_append _ _
    rw [r.textOf_pieces, RulesSpelling.before_eq h]
    exact readLayout_alone hstarts rfl
  have halone := hcuts.alone
  have hspells := halone.spells .nil
  rw [List.append_nil, r.map_lexeme_pieces] at hspells
  obtain ⟨r', hread, hunlaid⟩ := exists_read_of_spells (s := r.text) (by rw [hlayout]; exact hspells)
  have hcuts' := (takes_rules hread).1
  rw [hlayout] at hcuts'
  have hrules : r'.rules = r.rules := eq_of_map_unlaid hunlaid (hcuts'.unique halone)
  have hbefore : r'.before = r.before := by rw [RulesSpelling.before_eq hread, hlayout]
  obtain ⟨before, first, more⟩ := r
  obtain ⟨before', first', more'⟩ := r'
  obtain ⟨rfl, rfl⟩ := List.cons.inj hrules
  obtain rfl := hbefore
  exact hread

end Pegboard.Syntax
