import Pegboard.Command.Run
import Pegboard.Proofs.Command.Args
import Pegboard.Proofs.Command.Files
import Pegboard.Proofs.Grammar.RoundTrip
import Pegboard.Proofs.Node.Outline

/-!
# How a command ends

A command whose files can have the names in it ends in one of five ways.  A file that it opens
is no text (`Undecodable`), and this is the only error that is not reported.  Something is wrong
with a file, with the definition or with the rule (`Refused`), and the exit code is 2.  The text
is not matched, or not to its end when that is asked for (`Unmatched`), and the code is 1.  A line
is shown (`Shows`), the code is 0, and this is the only way to print something.  Or matching or
rendering nests too deep.

Each way is followed through the run once, and there is no sixth way (`run_cases`).  The exit
code then tells the ways apart (`run_outcome`).  None of them depends on whether reports are
asked for, so a run with reports ends like the run without.
-/

namespace Pegboard

open Syntax Store

/-! ## Grammars that are compiled -/

theorem Error.IsWriting.isDefinition : ∀ {err : Error}, err.IsWriting → err.isDefinition = true
  | .badLiteral _ _, _ | .unknownFlag _ _ _, _ | .badPattern _ _, _ => rfl

/-- A match has the name of its expression. -/
theorem Store.name_of_matchAt [Platform] {store : Store} {text : Text} {depth : Nat} {e : ExprId}
    {pos : Int} {n : Node} (h : store.matchAt text depth e pos = .ok (some n)) :
    n.name = store.nameOf e := by
  cases depth with
  | zero => cases h
  | succ depth =>
    rcases hcell : store[e]? with _ | cell
    · rw [matchAt_none hcell] at h
      cases h
    · rw [matchAt_succ hcell] at h
      obtain ⟨o, -, ho⟩ := map_eq_ok h
      obtain ⟨x, -, rfl⟩ := Option.map_eq_some_iff.1 ho
      rw [nameOf, hcell]
      rfl

namespace Grammar

variable [Platform] {depth : Nat} {s : Text} {start : Option Text} {g : Grammar}

theorem parseTo_unknown {name : Text} (h : g.table.contains name = false) (t : Text) (pos : Int) :
    g.parseTo depth t (some name) pos = .error (.unknownRule name) := by
  rw [RuleTable.contains, Option.isSome_eq_false_iff, Option.isNone_iff_eq_none] at h
  rw [parseTo, RuleTable.rule, Option.getD_some, h]

variable [Platform.ReadsTokens]

/-- A text is compiled if no rule to start with is wanted, or something is wrong with it. -/
theorem compileTo_none_cases (depth : Nat) (s : Text) : (∃ g, compileTo depth s none = .ok g) ∨
    (∃ e, compileTo depth s none = .error e ∧ e.isDefinition = true) ∨
      compileTo depth s none = .error .tooDeep := by
  rcases compileTo_cases depth s with ⟨-, hdeep⟩ | ⟨pos, hstopped⟩ | ⟨r, -, hread⟩
  · exact .inr (.inr (hdeep none))
  · exact .inr (.inl ⟨_, hstopped none, rfl⟩)
  rcases hds : r.definitions with e | ds
  · refine .inr (.inl ⟨e, by rw [hread, hds]; rfl, ?_⟩)
    rcases definitionsAfter_error hds with hwriting | ⟨name, rfl⟩
    · exact hwriting.isDefinition
    · rfl
  have hbuild : compileTo depth s none = ofBuild (Definition.assemble ds) none := by
    rw [hread, hds]
    rfl
  by_cases hcomplete : Definition.Complete ds
  · rw [Definition.ofBuild_complete hcomplete (definitions_ne_nil hds)] at hbuild
    exact .inl ⟨_, hbuild⟩
  · obtain ⟨name, hmissing⟩ := Definition.ofBuild_missing hcomplete none
    exact .inr (.inl ⟨_, hbuild.trans hmissing, rfl⟩)

section

variable (h : compileTo depth s start = .ok g)
include h

theorem renderTo_compiled (depth' : Nat) :
    (∃ text, g.renderTo depth' = .ok text) ∨ g.renderTo depth' = .error .tooDeep := by
  obtain ⟨r, ds, name, -, hds, hcomplete, -, rfl⟩ := compileTo_eq_ok h
  rw [Definition.renderTo_grammar hcomplete (nodup_definitions hds)
    fun d hd => (Definition.written_definitions hds d hd).label_ne_nil]
  rcases (reaches_upTo _ _).2 depth' with hok | hdeep
  · exact .inl ⟨_, hok⟩
  · exact .inr hdeep

/-- Matching a rule gives a node or nothing, or nests too deep, or there is no such rule. -/
theorem parseTo_compiled (depth' : Nat) (t : Text) (rule : Option Text) (pos : Int) :
    (∃ o, g.parseTo depth' t rule pos = .ok o) ∨ g.parseTo depth' t rule pos = .error .tooDeep ∨
      ∃ name, rule = some name ∧ g.table.contains name = false := by
  obtain ⟨r, ds, start', -, hds, hcomplete, hstart', rfl⟩ := compileTo_eq_ok h
  by_cases hrule : ∀ name, rule = some name → name ∈ ds.map Definition.label
  · rcases Definition.parseTo_grammar hcomplete (nodup_definitions hds) hstart' depth' t hrule pos with
      hok | hdeep
    · exact .inl hok
    · exact .inr (.inl hdeep)
  · push Not at hrule
    obtain ⟨name, rfl, hname⟩ := hrule
    refine .inr (.inr ⟨name, rfl, ?_⟩)
    rw [← Bool.not_eq_true, Definition.contains_grammar]
    exact hname

/-- The match of a rule has a name. -/
theorem name_of_parseTo {depth' : Nat} {t : Text} {rule : Option Text} {pos : Int} {n : Node}
    (hparse : g.parseTo depth' t rule pos = .ok (some n)) : n.name ≠ [] := by
  obtain ⟨r, ds, start', -, hds, hcomplete, -, rfl⟩ := compileTo_eq_ok h
  rw [parseTo, RuleTable.rule] at hparse
  rcases hlookup : (Definition.grammar ds start').table.rules.lookup
      (rule.getD (Definition.grammar ds start').table.start) with _ | e
  · rw [hlookup] at hparse
    cases hparse
  · rw [hlookup] at hparse
    have hmem : (_, e) ∈ Definition.rulesFrom 0 ds := Definition.mem_of_lookup hlookup
    have hnamed := (Definition.linked_graph hcomplete (nodup_definitions hds)).named _ hmem
    have hlabel : rule.getD start' ∈ ds.map Definition.label := by
      rw [← Definition.names_rulesFrom 0 ds]
      exact List.mem_map_of_mem hmem
    obtain ⟨d, hd, hlabel⟩ := List.mem_map.1 hlabel
    rw [name_of_matchAt hparse]
    refine fun hnil => (Definition.written_definitions hds d hd).label_ne_nil ?_
    exact hlabel.trans (hnamed.symm.trans hnil)

end

end Grammar

namespace Command

/-! ## What a run is about -/

/-- The names of files in a command, as they are given. -/
def names : Command → List Text
  | .check path _ => [path]
  | .parse path r => path :: r.input.toList

theorem names_withDebug (c : Command) : c.withDebug.names = c.names := by
  cases c <;> rfl

theorem isFileName_input {path : Text} {r : Request}
    (hnames : ∀ name ∈ (parse path r).names, IsFileName name) : IsFileName (r.input.getD []) := by
  cases hinput : r.input with
  | none => decide
  | some name => exact hnames name (by simp [names, hinput])

/-- The path of the grammar file. -/
def grammarPath : Command → Text
  | .check path _ | .parse path _ => normalPath path

/-- What is found under the name of the input file. -/
def Request.inputFile (files : Text → File) (r : Request) : File := found files (r.input.getD [])

/-- The request is about a text, which it gives itself or by its input file. -/
def Request.Takes (files : Text → File) (r : Request) (text : Text) : Prop :=
  r.text = some text ∨ r.text = none ∧ (r.inputFile files).Holds text

section

variable [Platform]

/-- The grammar file holds a definition, and the grammar is what it is compiled to. -/
def Compiles (depth : Nat) (files : Text → File) (c : Command) (g : Grammar) : Prop :=
  ∃ source, (files c.grammarPath).Holds source ∧ Grammar.compileTo depth source none = .ok g

/-- A file that is opened is not UTF-8.  The input file is opened if it is to be read and the
grammar is in order. -/
inductive Undecodable (depth : Nat) (files : Text → File) : Command → Prop where
  | grammar {c : Command} (garbled : (files c.grammarPath).Garbled) : Undecodable depth files c
  | input {path : Text} {r : Request} {g : Grammar} (compiles : Compiles depth files (.parse path r) g)
      (read : r.text = none) (garbled : (r.inputFile files).Garbled) :
      Undecodable depth files (.parse path r)

/-- The grammar file cannot be opened, or the definition in it is wrong, or the input file
cannot be opened although it is to be read, or there is no such rule. -/
inductive Refused (depth : Nat) (files : Text → File) : Command → Prop where
  | grammar {c : Command} (unopened : (files c.grammarPath).Unopened) : Refused depth files c
  | definition {c : Command} {source : Text} {e : Error} (holds : (files c.grammarPath).Holds source)
      (wrong : Grammar.compileTo depth source none = .error e) (isDefinition : e.isDefinition = true) :
      Refused depth files c
  | input {path : Text} {r : Request} {g : Grammar} (compiles : Compiles depth files (.parse path r) g)
      (read : r.text = none) (unopened : (r.inputFile files).Unopened) :
      Refused depth files (.parse path r)
  | rule {path : Text} {r : Request} {g : Grammar} {name : Text}
      (compiles : Compiles depth files (.parse path r) g) (wanted : r.rule = some name)
      (unknown : g.table.contains name = false) : Refused depth files (.parse path r)

/-- The text is not matched, or it is to be matched to its end and is not. -/
inductive Unmatched (depth : Nat) (files : Text → File) : Command → Prop where
  | nothing {path : Text} {r : Request} {g : Grammar} {text : Text}
      (compiles : Compiles depth files (.parse path r) g) (takes : r.Takes files text)
      (parsed : g.parseTo depth text r.rule 0 = .ok none) : Unmatched depth files (.parse path r)
  | short {path : Text} {r : Request} {g : Grammar} {text : Text} {n : Node}
      (compiles : Compiles depth files (.parse path r) g) (takes : r.Takes files text)
      (parsed : g.parseTo depth text r.rule 0 = .ok (some n)) (full : r.full = true)
      (stop : n.stop ≠ text.length) : Unmatched depth files (.parse path r)

/-- What is shown: that the grammar is in order, or the node that was matched, as a listing or
as an outline. -/
inductive Shows (depth : Nat) (files : Text → File) : Command → Text → Prop where
  | check {path : Text} {debug : Bool} {g : Grammar}
      (compiles : Compiles depth files (.check path debug) g) :
      Shows depth files (.check path debug) (checkLine g)
  | listing {path : Text} {r : Request} {g : Grammar} {text : Text} {n : Node}
      (compiles : Compiles depth files (.parse path r) g) (takes : r.Takes files text)
      (parsed : g.parseTo depth text r.rule 0 = .ok (some n))
      (stop : r.full = true → n.stop = text.length)
      (plain : r.outline = false) : Shows depth files (.parse path r) n.listing
  | outline {path : Text} {r : Request} {g : Grammar} {text : Text} {n : Node} {o : Outline}
      (compiles : Compiles depth files (.parse path r) g) (takes : r.Takes files text)
      (parsed : g.parseTo depth text r.rule 0 = .ok (some n))
      (stop : r.full = true → n.stop = text.length)
      (outlined : r.outline = true) (some : n.outline? = some o) :
      Shows depth files (.parse path r) o.printed

/-! What a command is about does not depend on whether reports are asked for. -/

variable {depth : Nat} {files : Text → File} {c : Command}

theorem Compiles.withDebug {g : Grammar} (h : Compiles depth files c g) :
    Compiles depth files c.withDebug g := by
  cases c <;> exact h

theorem undecodable_withDebug (h : Undecodable depth files c.withDebug) :
    Undecodable depth files c := by
  cases c with
  | check path debug =>
    cases h with
    | grammar garbled => exact .grammar garbled
  | parse path r =>
    cases h with
    | grammar garbled => exact .grammar garbled
    | input compiles read garbled => exact .input compiles read garbled

theorem Undecodable.withDebug (h : Undecodable depth files c) :
    Undecodable depth files c.withDebug := by
  cases h with
  | grammar garbled => exact .grammar (by cases c <;> exact garbled)
  | input compiles read garbled => exact .input compiles.withDebug read garbled

theorem Refused.withDebug (h : Refused depth files c) : Refused depth files c.withDebug := by
  cases h with
  | grammar unopened => exact .grammar (by cases c <;> exact unopened)
  | definition holds wrong isDefinition =>
    exact .definition (by cases c <;> exact holds) wrong isDefinition
  | input compiles read unopened => exact .input compiles.withDebug read unopened
  | rule compiles wanted unknown => exact .rule compiles.withDebug wanted unknown

theorem Unmatched.withDebug (h : Unmatched depth files c) : Unmatched depth files c.withDebug := by
  cases h with
  | nothing compiles takes parsed => exact .nothing compiles.withDebug takes parsed
  | short compiles takes parsed full stop => exact .short compiles.withDebug takes parsed full stop

theorem Shows.withDebug {line : Text} (h : Shows depth files c line) :
    Shows depth files c.withDebug line := by
  cases h with
  | check compiles => exact .check compiles.withDebug
  | listing compiles takes parsed stop plain =>
    exact .listing compiles.withDebug takes parsed stop plain
  | outline compiles takes parsed stop outlined some =>
    exact .outline compiles.withDebug takes parsed stop outlined some

end

/-! ## Following a run -/

section

variable [Platform] {depth : Nat} {files : Text → File}

section

variable {path : Text} {debug : Bool} {next : Printed → Grammar → Report} (hpath : IsFileName path)
include hpath

theorem withGrammar_unopened (h : (files (normalPath path)).Unopened) :
    (withGrammar depth files path debug next).Ends (.ok 2) [] := by
  rw [← found_normalPath files path] at h
  exact withText_unopened hpath.normalPath rfl h

theorem withGrammar_garbled (h : (files (normalPath path)).Garbled) :
    (withGrammar depth files path debug next).Ends (.error .notUtf8) [] := by
  rw [← found_normalPath files path] at h
  exact withText_garbled hpath.normalPath rfl h

section

variable {source : Text} (h : (files (normalPath path)).Holds source)
include h

variable (depth debug next) in
/-- Once the grammar file is read, its text is compiled. -/
theorem withGrammar_holds : ∃ p : Printed, p.out = [] ∧
    withGrammar depth files path debug next =
      withCompiled p debug next (Grammar.compileTo depth source none) := by
  rw [← found_normalPath files path] at h
  exact ⟨_, Printed.out_debug _ _ _, withText_holds hpath.normalPath h⟩

theorem withGrammar_wrong {e : Error} (hwrong : Grammar.compileTo depth source none = .error e)
    (he : e.isDefinition = true) : (withGrammar depth files path debug next).Ends (.ok 2) [] := by
  obtain ⟨p, hp, hrun⟩ := withGrammar_holds depth debug next hpath h
  rw [hrun, hwrong, withCompiled, if_pos he]
  exact ⟨rfl, hp⟩

theorem withGrammar_tooDeep (hdeep : Grammar.compileTo depth source none = .error .tooDeep) :
    (withGrammar depth files path debug next).exit = .error .tooDeep := by
  obtain ⟨p, -, hrun⟩ := withGrammar_holds depth debug next hpath h
  rw [hrun, hdeep]
  rfl

/-- With a grammar the run goes on, and nothing is printed yet. -/
theorem withGrammar_compiles {g : Grammar} (hg : Grammar.compileTo depth source none = .ok g) :
    ∃ p : Printed, p.out = [] ∧ withGrammar depth files path debug next = next p g := by
  obtain ⟨p, hp, hrun⟩ := withGrammar_holds depth debug next hpath h
  rw [hrun, hg]
  exact ⟨_, (Printed.out_debug _ _ _).trans hp, rfl⟩

end

end

section

variable {path : Text} {r : Request} {g : Grammar}
  (hnames : ∀ name ∈ (parse path r).names, IsFileName name)
include hnames

/-- Once the grammar is compiled, the input file comes next if it is to be read. -/
theorem runParse_read (h : Compiles depth files (.parse path r) g) (hread : r.text = none) :
    ∃ p : Printed, p.out = [] ∧ runTo depth files (.parse path r) =
      withText p files (r.input.getD []) (runMatch depth p g r) := by
  obtain ⟨source, hsource, hg⟩ := h
  obtain ⟨p, hp, hrun⟩ := withGrammar_compiles (hnames path List.mem_cons_self) hsource hg
  refine ⟨p, hp, ?_⟩
  rw [runTo, runParse, hrun]
  simp only [hread]

/-- Once there are a grammar and a text, the two are matched. -/
theorem run_takes {text : Text} (h : Compiles depth files (.parse path r) g)
    (htext : r.Takes files text) :
    ∃ p : Printed, p.out = [] ∧ runTo depth files (.parse path r) = runMatch depth p g r text := by
  rcases htext with htext | ⟨hread, hholds⟩
  · obtain ⟨source, hsource, hg⟩ := h
    obtain ⟨p, hp, hrun⟩ := withGrammar_compiles (hnames path List.mem_cons_self) hsource hg
    refine ⟨p, hp, ?_⟩
    rw [runTo, runParse, hrun]
    simp only [htext]
  · obtain ⟨p, hp, hrun⟩ := runParse_read hnames h hread
    exact ⟨p, hp, hrun.trans (withText_holds (isFileName_input hnames) hholds)⟩

theorem run_unopened (compiles : Compiles depth files (.parse path r) g) (read : r.text = none)
    (unopened : (r.inputFile files).Unopened) :
    (runTo depth files (.parse path r)).Ends (.ok 2) [] := by
  obtain ⟨p, hp, hrun⟩ := runParse_read hnames compiles read
  rw [hrun]
  exact withText_unopened (isFileName_input hnames) hp unopened

end

variable {c : Command} (hnames : ∀ name ∈ c.names, IsFileName name)
include hnames

theorem Undecodable.run (h : Undecodable depth files c) :
    (c.runTo depth files).Ends (.error .notUtf8) [] := by
  cases h with
  | grammar garbled => cases c <;> exact withGrammar_garbled (hnames _ List.mem_cons_self) garbled
  | input compiles read garbled =>
    obtain ⟨p, hp, hrun⟩ := runParse_read hnames compiles read
    rw [hrun]
    exact withText_garbled (isFileName_input hnames) hp garbled

theorem Refused.run (h : Refused depth files c) (hdecodable : ¬ Undecodable depth files c) :
    (c.runTo depth files).Ends (.ok 2) [] := by
  cases h with
  | grammar unopened =>
    cases c <;> exact withGrammar_unopened (hnames _ List.mem_cons_self) unopened
  | definition holds wrong isDefinition =>
    cases c <;> exact withGrammar_wrong (hnames _ List.mem_cons_self) holds wrong isDefinition
  | input compiles read unopened => exact run_unopened hnames compiles read unopened
  | @rule path r g name compiles wanted unknown =>
    have hrefused : ∀ {text : Text}, r.Takes files text →
        (Command.runTo depth files (.parse path r)).Ends (.ok 2) [] := by
      intro text htakes
      obtain ⟨p, hp, hrun⟩ := run_takes hnames compiles htakes
      rw [hrun, runMatch, wanted, Grammar.parseTo_unknown unknown]
      exact ⟨rfl, hp⟩
    rcases htext : r.text with _ | text
    · rcases (r.inputFile files).cases with hunopened | hgarbled | ⟨text, hholds⟩
      · exact run_unopened hnames compiles htext hunopened
      · exact absurd (.input compiles htext hgarbled) hdecodable
      · exact hrefused (.inr ⟨htext, hholds⟩)
    · exact hrefused (.inl htext)

theorem Unmatched.run (h : Unmatched depth files c) : (c.runTo depth files).Ends (.ok 1) [] := by
  cases h with
  | nothing compiles takes parsed =>
    obtain ⟨p, hp, hrun⟩ := run_takes hnames compiles takes
    rw [hrun, runMatch, parsed]
    exact ⟨rfl, hp⟩
  | short compiles takes parsed full stop =>
    obtain ⟨p, hp, hrun⟩ := run_takes hnames compiles takes
    rw [hrun, runMatch, parsed]
    simp only [full, Bool.true_and, bne_iff_ne, ne_eq, stop, not_false_eq_true, if_true]
    exact ⟨rfl, hp⟩

omit hnames in
/-- With a grammar, a text and a match to show, the run ends well. -/
theorem run_shown {path : Text} {r : Request} {g : Grammar} {text : Text} {n : Node}
    (hnames : ∀ name ∈ (parse path r).names, IsFileName name)
    (compiles : Compiles depth files (.parse path r) g) (takes : r.Takes files text)
    (parsed : g.parseTo depth text r.rule 0 = .ok (some n))
    (stop : r.full = true → n.stop = text.length) :
    (runTo depth files (.parse path r)).Ends (.ok 0) (nodeText r.outline n ++ [.char '\n']) := by
  obtain ⟨p, hp, hrun⟩ := run_takes hnames compiles takes
  have hwhole : (r.full && n.stop != text.length) = false := by
    cases hfull : r.full with
    | false => rfl
    | true => simp [stop hfull]
  rw [hrun, runMatch, parsed]
  simp only [hwhole, Bool.false_eq_true, if_false]
  exact ⟨rfl, by simp [Printed.exit, Printed.say, hp]⟩

omit hnames in
/-- A grammar in order is said to be so, unless it is to be rendered and nests too deep. -/
theorem run_compiles {path : Text} {debug : Bool} {g : Grammar} (hpath : IsFileName path)
    (compiles : Compiles depth files (.check path debug) g)
    (hrender : debug = true → ∃ text, g.renderTo depth = .ok text) :
    (runTo depth files (.check path debug)).Ends (.ok 0) (checkLine g ++ [.char '\n']) := by
  obtain ⟨source, hsource, hg⟩ := compiles
  obtain ⟨p, hp, hrun⟩ := withGrammar_compiles hpath hsource hg
  rw [runTo, runCheck, hrun]
  cases debug with
  | false => exact ⟨rfl, by simp [Printed.exit, Printed.say, hp]⟩
  | true =>
    obtain ⟨text, hrender⟩ := hrender rfl
    rw [hrender]
    exact ⟨rfl, by simp [Printed.exit, Printed.say, hp]⟩

variable [Platform.ReadsTokens]

/-- A run that has something to show shows it, unless the grammar nests too deep to be
reported. -/
theorem Shows.run {line : Text} (h : Shows depth files c line) :
    (c.runTo depth files).Ends (.ok 0) (line ++ [.char '\n']) ∨
      (c.runTo depth files).exit = .error .tooDeep := by
  cases h with
  | @check path debug g compiles =>
    have hpath : IsFileName path := hnames path List.mem_cons_self
    cases debug with
    | false => exact .inl (run_compiles hpath compiles nofun)
    | true =>
      obtain ⟨source, hsource, hg⟩ := id compiles
      rcases Grammar.renderTo_compiled hg depth with hrender | hdeep
      · exact .inl (run_compiles hpath compiles fun _ => hrender)
      · obtain ⟨p, hp, hrun⟩ := withGrammar_compiles hpath hsource hg
        rw [runTo, runCheck, hrun, if_pos rfl, hdeep]
        exact .inr rfl
  | @listing path r g text n compiles takes parsed stop plain =>
    have hends := run_shown hnames compiles takes parsed stop
    rw [plain] at hends
    exact .inl hends
  | @outline path r g text n o compiles takes parsed stop outlined outline =>
    have hends := run_shown hnames compiles takes parsed stop
    rw [outlined, nodeText, if_pos rfl, outline] at hends
    exact .inl hends

/-! ## Every run -/

omit hnames in
/-- A match that is to be shown can be shown. -/
theorem exists_shows {path : Text} {r : Request} {g : Grammar} {text : Text} {n : Node}
    (compiles : Compiles depth files (.parse path r) g) (takes : r.Takes files text)
    (parsed : g.parseTo depth text r.rule 0 = .ok (some n))
    (stop : r.full = true → n.stop = text.length) :
    ∃ line, Shows depth files (.parse path r) line := by
  rcases hplain : r.outline with _ | _
  · exact ⟨_, .listing compiles takes parsed stop hplain⟩
  · have hname : n.name ≠ [] := by
      obtain ⟨source, -, hg⟩ := compiles
      exact Grammar.name_of_parseTo hg parsed
    obtain ⟨o, ho⟩ := Node.exists_outline hname
    exact ⟨_, .outline compiles takes parsed stop hplain ho⟩

variable (depth files) in
theorem run_cases :
    Undecodable depth files c ∨ Refused depth files c ∨ Unmatched depth files c ∨
      (∃ line, Shows depth files c line) ∨ (c.runTo depth files).exit = .error .tooDeep := by
  rcases (files c.grammarPath).cases with hunopened | hgarbled | ⟨source, hsource⟩
  · exact .inr (.inl (.grammar hunopened))
  · exact .inl (.grammar hgarbled)
  rcases Grammar.compileTo_none_cases depth source with ⟨g, hg⟩ | ⟨e, hwrong, he⟩ | hdeep
  rotate_left
  · exact .inr (.inl (.definition hsource hwrong he))
  · refine .inr (.inr (.inr (.inr ?_)))
    cases c <;> exact withGrammar_tooDeep (hnames _ List.mem_cons_self) hsource hdeep
  cases c with
  | check path debug => exact .inr (.inr (.inr (.inl ⟨_, .check ⟨source, hsource, hg⟩⟩)))
  | parse path r =>
    have hcompiles : Compiles depth files (.parse path r) g := ⟨source, hsource, hg⟩
    have htaken : (∃ text, r.Takes files text) ∨ r.text = none ∧
        ((r.inputFile files).Unopened ∨ (r.inputFile files).Garbled) := by
      rcases htext : r.text with _ | text
      · rcases (r.inputFile files).cases with hunopened | hgarbled | ⟨text, hholds⟩
        · exact .inr ⟨rfl, .inl hunopened⟩
        · exact .inr ⟨rfl, .inr hgarbled⟩
        · exact .inl ⟨text, .inr ⟨htext, hholds⟩⟩
      · exact .inl ⟨text, .inl htext⟩
    rcases htaken with ⟨text, htakes⟩ | ⟨hread, hunopened | hgarbled⟩
    rotate_left
    · exact .inr (.inl (.input hcompiles hread hunopened))
    · exact .inl (.input hcompiles hread hgarbled)
    rcases Grammar.parseTo_compiled hg depth text r.rule 0 with
      ⟨o, hparsed⟩ | hdeep | ⟨name, hname, hunknown⟩
    · cases o with
      | none => exact .inr (.inr (.inl (.nothing hcompiles htakes hparsed)))
      | some n =>
        by_cases hstop : r.full = true → n.stop = text.length
        · exact .inr (.inr (.inr (.inl (exists_shows hcompiles htakes hparsed hstop))))
        · push Not at hstop
          exact .inr (.inr (.inl (.short hcompiles htakes hparsed hstop.1 hstop.2)))
    · obtain ⟨p, -, hrun⟩ := run_takes hnames hcompiles htakes
      refine .inr (.inr (.inr (.inr ?_)))
      rw [hrun, runMatch, hdeep]
      rfl
    · exact .inr (.inl (.rule hcompiles hname hunknown))

/-- The ways to end exclude each other, since they differ in the exit code. -/
theorem run_ends (shallow : (c.runTo depth files).exit ≠ .error .tooDeep) :
    (Undecodable depth files c ∧ (c.runTo depth files).Ends (.error .notUtf8) []) ∨
    ¬ Undecodable depth files c ∧
      (Refused depth files c ∧ ¬ Unmatched depth files c ∧ (c.runTo depth files).Ends (.ok 2) [] ∨
        Unmatched depth files c ∧ ¬ Refused depth files c ∧ (c.runTo depth files).Ends (.ok 1) [] ∨
        ¬ Refused depth files c ∧ ¬ Unmatched depth files c ∧
          ∃ line, Shows depth files c line ∧
            (c.runTo depth files).Ends (.ok 0) (line ++ [.char '\n'])) := by
  by_cases hundecodable : Undecodable depth files c
  · exact .inl ⟨hundecodable, hundecodable.run hnames⟩
  refine .inr ⟨hundecodable, ?_⟩
  have hrefused {code : Nat} (h : (c.runTo depth files).exit = .ok code) (hcode : code ≠ 2) :
      ¬ Refused depth files c :=
    fun hrefused => hcode (Except.ok.inj (h.symm.trans (hrefused.run hnames hundecodable).1))
  have hunmatched {code : Nat} (h : (c.runTo depth files).exit = .ok code) (hcode : code ≠ 1) :
      ¬ Unmatched depth files c :=
    fun hunmatched => hcode (Except.ok.inj (h.symm.trans (hunmatched.run hnames).1))
  rcases run_cases depth files hnames with h | h | h | ⟨line, h⟩ | hdeep
  · exact absurd h hundecodable
  · have hends := h.run hnames hundecodable
    exact .inl ⟨h, hunmatched hends.1 (by decide), hends⟩
  · have hends := h.run hnames
    exact .inr (.inl ⟨h, hrefused hends.1 (by decide), hends⟩)
  · have hends := (h.run hnames).resolve_right shallow
    exact .inr (.inr ⟨hrefused hends.1 (by decide), hunmatched hends.1 (by decide), line, h, hends⟩)
  · exact absurd hdeep shallow

/-! ## With reports -/

/-- A run with reports ends like the run without, unless one of them nests too deep. -/
theorem run_withDebug (shallow : (c.runTo depth files).exit ≠ .error .tooDeep)
    (shallow' : (c.withDebug.runTo depth files).exit ≠ .error .tooDeep) :
    (c.withDebug.runTo depth files).Ends (c.runTo depth files).exit (c.runTo depth files).out := by
  have hsame : ∀ {exit : Except Error Nat} {out : Text}, (c.runTo depth files).Ends exit out →
      (c.withDebug.runTo depth files).Ends exit out →
      (c.withDebug.runTo depth files).Ends (c.runTo depth files).exit (c.runTo depth files).out := by
    rintro _ _ ⟨rfl, rfl⟩ h'
    exact h'
  have hnames' : ∀ name ∈ c.withDebug.names, IsFileName name := names_withDebug c ▸ hnames
  by_cases hundecodable : Undecodable depth files c
  · exact hsame (hundecodable.run hnames) (hundecodable.withDebug.run hnames')
  rcases run_cases depth files hnames with h | h | h | ⟨line, h⟩ | hdeep
  · exact absurd h hundecodable
  · exact hsame (h.run hnames hundecodable)
      (h.withDebug.run hnames' (mt undecodable_withDebug hundecodable))
  · exact hsame (h.run hnames) (h.withDebug.run hnames')
  · exact hsame ((h.run hnames).resolve_right shallow) ((h.withDebug.run hnames').resolve_right shallow')
  · exact absurd hdeep shallow

omit hnames in
/-- How a command line that is understood ends, if files can have the names in it and nothing
nests too deep.

The only error that is not reported is that a file is not UTF-8, and it comes up just when a
file that is opened is not.  Apart from that there is an exit code.  It is 2 just when something
is wrong with a file, the definition or the rule, 1 just when the text is not matched as asked,
and 0 otherwise.  Something is printed just when the code is 0, and it is one of the things that
a command shows, with a line feed.  And with the option for reports anywhere in the command line
where it is understood, the exit code and what is printed stay the same. -/
theorem run_outcome {args : List Text} {c : Command} (h : ofArgs args = .ok c)
    (hnames : ∀ name ∈ c.names, IsFileName name) {files : Text → File} {depth : Nat}
    (shallow : (c.runTo depth files).exit ≠ .error .tooDeep) :
    (∀ e, (c.runTo depth files).exit = .error e ↔ e = .notUtf8 ∧ Undecodable depth files c) ∧
    (¬ Undecodable depth files c →
      ((c.runTo depth files).exit = .ok 2 ↔ Refused depth files c) ∧
      ((c.runTo depth files).exit = .ok 1 ↔ Unmatched depth files c) ∧
      ((c.runTo depth files).exit = .ok 0 ↔ ¬ Refused depth files c ∧ ¬ Unmatched depth files c)) ∧
    ((c.runTo depth files).out ≠ [] ↔ (c.runTo depth files).exit = .ok 0) ∧
    ((c.runTo depth files).exit = .ok 0 →
      ∃ line, Shows depth files c line ∧ (c.runTo depth files).out = line ++ [.char '\n']) ∧
    ∀ before after, args = before ++ after →
      ∀ c', ofArgs (before ++ debugOption :: after) = .ok c' →
      (c'.runTo depth files).exit ≠ .error .tooDeep →
      (c'.runTo depth files).exit = (c.runTo depth files).exit ∧
        (c'.runTo depth files).out = (c.runTo depth files).out := by
  have hreported : ∀ before after, args = before ++ after →
      ∀ c', ofArgs (before ++ debugOption :: after) = .ok c' →
      (c'.runTo depth files).exit ≠ .error .tooDeep →
      (c'.runTo depth files).exit = (c.runTo depth files).exit ∧
        (c'.runTo depth files).out = (c.runTo depth files).out := by
    rintro before after rfl c' h' shallow'
    rw [ofArgs_insert h h'] at shallow' ⊢
    exact run_withDebug hnames shallow shallow'
  rcases run_ends hnames shallow with ⟨hundecodable, hexit, hout⟩ | ⟨hdecodable, hends⟩
  · rw [hexit, hout] at hreported ⊢
    refine ⟨fun e => ?_, absurd hundecodable, ?_, nofun, hreported⟩
    · exact ⟨fun he => ⟨(Except.error.inj he).symm, hundecodable⟩, fun h => by rw [h.1]⟩
    · exact ⟨fun h => absurd rfl h, nofun⟩
  have hreportedError {exit : Except Error Nat} (hexit : exit.isOk = true) (e : Error) :
      exit = .error e ↔ e = .notUtf8 ∧ Undecodable depth files c := by
    refine ⟨fun he => ?_, fun h => absurd h.2 hdecodable⟩
    rw [he] at hexit
    cases hexit
  rcases hends with ⟨hrefused, hmatched, hexit, hout⟩ | ⟨hunmatched, haccepted, hexit, hout⟩ |
    ⟨haccepted, hmatched, line, hline, hexit, hout⟩
  · rw [hexit, hout] at hreported ⊢
    exact ⟨hreportedError rfl, fun _ => by simp [hrefused, hmatched], by simp, by simp, hreported⟩
  · rw [hexit, hout] at hreported ⊢
    exact ⟨hreportedError rfl, fun _ => by simp [haccepted, hunmatched], by simp, by simp, hreported⟩
  · rw [hexit, hout] at hreported ⊢
    exact ⟨hreportedError rfl, fun _ => by simp [haccepted, hmatched], by simp,
      fun _ => ⟨line, hline, rfl⟩, hreported⟩

end

attribute [local instance] Platform.builtIn

/-- Two command lines that are not wrong end in other ways.  One of them asks for help, so it is
no command.  The other one names a file by a surrogate that stands for no byte: there is no NUL
in the name, and the run ends with an error that is neither that a file is not UTF-8 nor that
something nests too deep. -/
theorem help_and_surrogateName :
    ofArgs ["check".toText, [.char 'g'], "--help".toText] = .error .help ∧
    ofArgs ["check".toText, [.surrogate 0]] = .ok (.check [.surrogate 0] false) ∧
    .char '\x00' ∉ [Codepoint.surrogate 0] ∧ Error.unencodableName ∉ [.notUtf8, .tooDeep] ∧
    ∀ (files : Text → File) (depth : Nat),
      ((check [.surrogate 0] false).runTo depth files).exit = .error .unencodableName :=
  ⟨rfl, rfl, by decide, by decide, fun _ _ => rfl⟩

/-- A grammar file with one rule for one letter. -/
def letterFiles (path : Text) : File :=
  if path = [.char 'g'] then .bytes [97, 32, 61, 32, 34, 120, 34] else .missing

theorem compiles_letterFiles (debug : Bool) :
    ∃ g, Compiles depthLimit letterFiles (.check [.char 'g'] debug) g ∧
      ∃ text, g.renderTo depthLimit = .ok text := by
  obtain ⟨g, hg, hrender⟩ : ∃ g, Grammar.compile "a = \"x\"".toText none = .ok g ∧
      succeeds (fun _ => true) (g.renderTo depthLimit) = true :=
    Grammar.compile_of_graph (by decide +kernel) (by decide +kernel)
  obtain ⟨text, hrender, -⟩ := exists_of_succeeds hrender
  exact ⟨g, ⟨_, ⟨_, _, rfl, rfl, rfl⟩, hg⟩, text, hrender⟩

/-- A grammar that is in order is said to be so, with reports or without. -/
theorem run_outcome_letterFiles : ∃ c c', ofArgs ["check".toText, [.char 'g']] = .ok c ∧
    ofArgs ["check".toText, debugOption, [.char 'g']] = .ok c' ∧
    (c.run letterFiles).exit = .ok 0 ∧ (∃ line, Shows depthLimit letterFiles c line ∧
      (c.run letterFiles).out = line ++ [.char '\n']) ∧
    (c'.run letterFiles).exit = .ok 0 ∧ (c'.run letterFiles).out = (c.run letterFiles).out := by
  have hargs : ofArgs ["check".toText, [.char 'g']] = .ok (.check [.char 'g'] false) := rfl
  have hargs' : ofArgs ["check".toText, debugOption, [.char 'g']] = .ok (.check [.char 'g'] true) :=
    ofArgs_second hargs
  have hname : IsFileName [.char 'g'] := by decide
  obtain ⟨g, hcompiles, hrender⟩ := compiles_letterFiles false
  obtain ⟨g', hcompiles', hrender'⟩ := compiles_letterFiles true
  have hexit := (run_compiles hname hcompiles fun _ => hrender).1
  have hexit' := (run_compiles hname hcompiles' fun _ => hrender').1
  have houtcome := run_outcome hargs (by simpa [names] using hname) (by rw [hexit]; exact nofun)
  have hreported := houtcome.2.2.2.2 ["check".toText] [[.char 'g']] rfl _ hargs'
    (by rw [hexit']; exact nofun)
  exact ⟨_, _, hargs, hargs', hexit, houtcome.2.2.2.1 hexit, hexit', hreported.2⟩

end Command

end Pegboard
