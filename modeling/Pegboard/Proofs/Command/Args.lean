import Pegboard.Command.Args
import Pegboard.Proofs.Match.Step

/-!
# Asking for reports

The option that asks for reports may be put among the arguments of a command.  Wherever the
result is a command line that is understood, it asks for the same thing with reports
(`ofArgs_insert`).  Right behind the word of the command it is always understood
(`ofArgs_second`).

Arguments are read one by one, so this is proved for one argument and carried over the list.
Two facts do it.  A request with reports is read on like the request without
(`readArgs_withDebug`), and an argument too many is never forgiven (`excess_readArgs`).  The
second one is for the places where the option is taken for something else: behind the double
hyphen it is a plain argument, and between the file and the double hyphen it parts the two.
-/

namespace Pegboard

open Store (map_eq_ok)

namespace Command

/-- The option that asks for reports. -/
def debugOption : Text := "-D".toText

/-- The request with reports. -/
def Request.withDebug (r : Request) : Request := { r with debug := true }

end Command

/-- The command with reports. -/
def Command.withDebug : Command → Command
  | check file _ => check file true
  | parse file r => parse file r.withDebug

namespace Command

variable {options : Spellings} {mood : Mood} {r r' : Request}

/-! ## One argument -/

/-- Reads one argument. -/
def readArg (options : Spellings) : Mood → Request → Text → Except Refusal (Mood × Request)
  | .waiting flag, r, arg =>
    if arg = optionsEnd || classify options arg != .plain then .error .wrong
    else (r.assign arg flag).map (.ready false, ·)
  | .plainOnly, r, arg => .ok (.plainOnly, r.plain arg)
  | .ready afterFile, r, arg =>
    if arg = optionsEnd then
      .ok (.plainOnly, { r with excess := r.excess || (r.file.isSome && !afterFile) })
    else
      match classify options arg with
      | .plain => .ok (.ready r.file.isNone, r.plain arg)
      | .stray => .ok (.ready false, { r with excess := true })
      | .unclear => .error .wrong
      | .long flag value => (readLong r flag value).map fun (r, waiting) => (moodAfter waiting, r)
      | .short flag text =>
        (readShort options r [] flag text).map fun (r, waiting) => (moodAfter waiting, r)

theorem readArgs_cons (options : Spellings) (mood : Mood) (r : Request) (arg : Text)
    (rest : List Text) : readArgs options mood r (arg :: rest) =
      (readArg options mood r arg).bind fun (mood, r) => readArgs options mood r rest := by
  cases mood with
  | plainOnly => rfl
  | waiting flag =>
    rw [readArgs, readArg]
    split
    · rfl
    · cases r.assign arg flag <;> rfl
  | ready afterFile =>
    rw [readArgs, readArg]
    split
    · rfl
    · cases classify options arg with
      | plain | stray | unclear => rfl
      | long flag value => dsimp only; cases readLong r flag value <;> rfl
      | short flag text => dsimp only; cases readShort options r [] flag text <;> rfl

/-! ## Reading on with reports -/

theorem switch_withDebug (flag : Flag) :
    r.withDebug.switch flag = (r.switch flag).map Request.withDebug := by
  cases flag <;> rfl

theorem switches_withDebug (flags : List Flag) :
    r.withDebug.switches flags = (r.switches flags).map Request.withDebug := by
  induction flags generalizing r with
  | nil => rfl
  | cons flag flags ih =>
    simp only [Request.switches, List.foldlM_cons, switch_withDebug] at ih ⊢
    cases r.switch flag with
    | error e => rfl
    | ok r => exact ih

theorem assign_withDebug (value : Text) (flag : Flag) :
    r.withDebug.assign value flag = (r.assign value flag).map Request.withDebug := by
  cases flag with
  | text => by_cases h : r.input.isSome <;> simp [Request.assign, Request.withDebug, Except.map, h]
  | input => by_cases h : r.text.isSome <;> simp [Request.assign, Request.withDebug, Except.map, h]
  | help | debug | rule | outline | full => rfl

theorem plain_withDebug (arg : Text) : r.withDebug.plain arg = (r.plain arg).withDebug := by
  by_cases h : r.file.isNone <;> simp [Request.plain, Request.withDebug, h]

theorem readLong_withDebug (flag : Flag) (value : Option Text) :
    readLong r.withDebug flag value = (readLong r flag value).map (Prod.map Request.withDebug id) := by
  cases value with
  | none =>
    simp only [readLong, switch_withDebug]
    split
    · rfl
    · cases r.switch flag <;> rfl
  | some value =>
    simp only [readLong, assign_withDebug]
    cases r.assign value flag <;> rfl

theorem readShort_withDebug (text : Text) : ∀ (before : List Flag) (flag : Flag),
    readShort options r.withDebug before flag text =
      (readShort options r before flag text).map (Prod.map Request.withDebug id) := by
  induction text with
  | nil =>
    intro before flag
    simp only [readShort, switches_withDebug]
    split
    · cases r.switches before <;> rfl
    · cases r.switches (before ++ [flag]) <;> rfl
  | cons c rest ih =>
    intro before flag
    simp only [readShort, switches_withDebug]
    split
    · split
      · cases r.switches before with
        | error e => rfl
        | ok r =>
          simp only [Except.map, Except.bind, assign_withDebug]
          cases r.assign _ flag <;> rfl
      · rfl
    · split
      · rfl
      · split
        · exact ih _ _
        · cases r.switches (before ++ [flag]) <;> rfl

theorem readArg_withDebug (arg : Text) : readArg options mood r.withDebug arg =
    (readArg options mood r arg).map (Prod.map id Request.withDebug) := by
  cases mood with
  | plainOnly => simp only [readArg, plain_withDebug, Except.map, Prod.map, id]
  | waiting flag =>
    simp only [readArg, assign_withDebug]
    split
    · rfl
    · cases r.assign arg flag <;> rfl
  | ready afterFile =>
    simp only [readArg, plain_withDebug, readLong_withDebug, readShort_withDebug]
    split
    · rfl
    · cases classify options arg with
      | plain | stray | unclear => rfl
      | long flag value => dsimp only; cases readLong r flag value <;> rfl
      | short flag text => dsimp only; cases readShort options r [] flag text <;> rfl

/-- A request with reports is read on like the request without. -/
theorem readArgs_withDebug (args : List Text) : ∀ {mood : Mood} {r : Request},
    readArgs options mood r.withDebug args = (readArgs options mood r args).map Request.withDebug := by
  induction args with
  | nil =>
    intro mood r
    cases mood <;> rfl
  | cons arg rest ih =>
    intro mood r
    simp only [readArgs_cons, readArg_withDebug]
    cases readArg options mood r arg with
    | error e => rfl
    | ok x => exact ih

/-! ## Arguments too many -/

theorem excess_switch {flag : Flag} (h : r.switch flag = .ok r') : r'.excess = r.excess := by
  cases flag <;> cases h <;> rfl

theorem excess_switches {flags : List Flag} (h : r.switches flags = .ok r') :
    r'.excess = r.excess := by
  induction flags generalizing r with
  | nil =>
    cases h
    rfl
  | cons flag flags ih =>
    rw [Request.switches, List.foldlM_cons] at h
    rcases hswitch : r.switch flag with e | r₁
    · rw [hswitch] at h
      cases h
    · rw [hswitch] at h
      exact (ih h).trans (excess_switch hswitch)

theorem excess_assign {value : Text} {flag : Flag} (h : r.assign value flag = .ok r') :
    r'.excess = r.excess := by
  cases flag with
  | text | input =>
    rw [Request.assign] at h
    split at h
    · cases h
    · cases h
      rfl
  | help | debug | rule | outline | full => cases h <;> rfl

theorem excess_plain (h : r.excess = true) (arg : Text) : (r.plain arg).excess = true := by
  rw [Request.plain]
  split
  · exact h
  · rfl

theorem excess_readLong {flag : Flag} {value : Option Text} {x : Progress}
    (h : readLong r flag value = .ok x) : x.1.excess = r.excess := by
  cases value with
  | none =>
    rw [readLong] at h
    split at h
    · cases h
      rfl
    · obtain ⟨r', hswitch, rfl⟩ := map_eq_ok h
      exact excess_switch hswitch
  | some value =>
    obtain ⟨r', hassign, rfl⟩ := map_eq_ok h
    exact excess_assign hassign

theorem excess_readShort {text : Text} : ∀ {before : List Flag} {flag : Flag} {x : Progress},
    readShort options r before flag text = .ok x → r.excess = true → x.1.excess = true := by
  induction text with
  | nil =>
    intro before flag x h hexcess
    rw [readShort] at h
    split at h
    all_goals
      obtain ⟨r', hswitches, rfl⟩ := map_eq_ok h
      exact (excess_switches hswitches).trans hexcess
  | cons c rest ih =>
    intro before flag x h hexcess
    rw [readShort] at h
    split at h
    · dsimp only at h
      split at h
      · obtain ⟨r₂, hbind, rfl⟩ := map_eq_ok h
        rcases hswitches : r.switches before with e | r₁
        · rw [hswitches] at hbind
          cases hbind
        · rw [hswitches] at hbind
          exact (excess_assign hbind).trans ((excess_switches hswitches).trans hexcess)
      · cases h
    · split at h
      · cases h
      · split at h
        · exact ih h hexcess
        · obtain ⟨r', -, rfl⟩ := map_eq_ok h
          rfl

theorem excess_readArg {arg : Text} {x : Mood × Request} (h : readArg options mood r arg = .ok x)
    (hexcess : r.excess = true) : x.2.excess = true := by
  cases mood with
  | plainOnly =>
    cases h
    exact excess_plain hexcess arg
  | waiting flag =>
    rw [readArg] at h
    split at h
    · cases h
    · obtain ⟨r', hassign, rfl⟩ := map_eq_ok h
      exact (excess_assign hassign).trans hexcess
  | ready afterFile =>
    rw [readArg] at h
    split at h
    · cases h
      simp only [hexcess, Bool.true_or]
    · split at h
      · cases h
        exact excess_plain hexcess arg
      · cases h
        rfl
      · cases h
      · obtain ⟨y, hlong, rfl⟩ := map_eq_ok h
        exact (excess_readLong hlong).trans hexcess
      · obtain ⟨y, hshort, rfl⟩ := map_eq_ok h
        exact excess_readShort hshort hexcess

/-- An argument too many is never forgiven. -/
theorem excess_readArgs {args : List Text} : ∀ {mood : Mood} {r : Request},
    readArgs options mood r args = .ok r' → r.excess = true → r'.excess = true := by
  induction args with
  | nil =>
    intro mood r h hexcess
    cases mood <;> cases h
    all_goals exact hexcess
  | cons arg rest ih =>
    intro mood r h hexcess
    rw [readArgs_cons] at h
    rcases harg : readArg options mood r arg with e | x
    · rw [harg] at h
      cases h
    · rw [harg] at h
      exact ih h (excess_readArg harg hexcess)

theorem excess_before {args : List Text} (h : readArgs options mood r args = .ok r')
    (hexcess : r'.excess = false) : r.excess = false := by
  rcases hr : r.excess with _ | _
  · rfl
  · rw [excess_readArgs h hr] at hexcess
    cases hexcess

/-! ## The option among the arguments -/

/-- The options of a command have the one that asks for reports. -/
def KnowsDebug (options : Spellings) : Prop := classify options debugOption = .short .debug []

theorem knowsDebug_check : KnowsDebug checkOptions := by
  unfold KnowsDebug
  decide

theorem knowsDebug_parse : KnowsDebug parseOptions := by
  unfold KnowsDebug
  decide

theorem readArgs_ready_debug (hoptions : KnowsDebug options) (afterFile : Bool) (r : Request)
    (rest : List Text) : readArgs options (.ready afterFile) r (debugOption :: rest) =
      readArgs options (.ready false) r.withDebug rest := by
  have harg : readArg options (.ready afterFile) r debugOption = .ok (.ready false, r.withDebug) := by
    rw [readArg, if_neg (by decide), hoptions]
    rfl
  rw [readArgs_cons, harg]
  rfl

/-- It makes no difference whether the file came last, unless that lets a double hyphen go
with it. -/
theorem readArgs_ready {args : List Text} {r₁ r₂ : Request} {afterFile : Bool}
    (h₁ : readArgs options (.ready afterFile) r args = .ok r₁)
    (h₂ : readArgs options (.ready false) r args = .ok r₂) (hexcess : r₂.excess = false) :
    r₂ = r₁ := by
  cases args with
  | nil =>
    cases h₁
    cases h₂
    rfl
  | cons arg rest =>
    rw [readArgs_cons] at h₁ h₂
    by_cases hend : arg = optionsEnd
    · simp only [readArg, if_pos hend, Except.bind] at h₁ h₂
      have hparted := excess_before h₂ hexcess
      simp only [Bool.not_false, Bool.and_true, Bool.or_eq_false_iff] at hparted
      simp only [hparted, Bool.false_and, Bool.or_self] at h₁ h₂
      rw [h₁] at h₂
      exact (Except.ok.inj h₂).symm
    · have hsame : readArg options (.ready afterFile) r arg = readArg options (.ready false) r arg := by
        rw [readArg, readArg, if_neg hend, if_neg hend]
      rw [hsame, h₂] at h₁
      exact Except.ok.inj h₁

/-- Behind the double hyphen there is no option.  The file is among the arguments, so one more
is one too many. -/
theorem excess_plainOnly {args : List Text} {r₁ r₂ : Request} (hfile : r₁.file.isSome = true)
    (h₁ : readArgs options .plainOnly r args = .ok r₁) (arg : Text)
    (h₂ : readArgs options .plainOnly r (arg :: args) = .ok r₂) : r₂.excess = true := by
  have hplain : ∀ {r : Request}, r.file.isSome = true → ∀ arg, (r.plain arg).excess = true := by
    intro r hr arg
    simp [Request.plain, Option.isSome_iff_ne_none.1 hr]
  by_cases hr : r.file.isSome = true
  · exact excess_readArgs (r := r.plain arg) h₂ (hplain hr arg)
  · cases args with
    | nil =>
      cases h₁
      exact absurd hfile hr
    | cons first rest =>
      refine excess_readArgs (r := (r.plain arg).plain first) h₂ (hplain ?_ first)
      simp [Request.plain, Option.not_isSome_iff_eq_none.1 hr]

/-- With the option put among them, arguments that are understood ask for the same thing with
reports. -/
theorem readArgs_insert (hoptions : KnowsDebug options) {after : List Text} {r₁ r₂ : Request}
    (hfile : r₁.file.isSome = true) (hexcess : r₂.excess = false) : ∀ (before : List Text)
    {mood : Mood} {r : Request}, readArgs options mood r (before ++ after) = .ok r₁ →
    readArgs options mood r (before ++ debugOption :: after) = .ok r₂ → r₂ = r₁.withDebug := by
  intro before
  induction before with
  | nil =>
    intro mood r h₁ h₂
    cases mood with
    | waiting flag =>
      have harg : readArg options (.waiting flag) r debugOption = .error .wrong := by
        rw [readArg, hoptions]
        rfl
      rw [List.nil_append, readArgs_cons, harg] at h₂
      cases h₂
    | plainOnly =>
      rw [excess_plainOnly hfile h₁ debugOption h₂] at hexcess
      cases hexcess
    | ready afterFile =>
      rw [List.nil_append, readArgs_ready_debug hoptions] at h₂
      have hreported : readArgs options (.ready afterFile) r.withDebug after = .ok r₁.withDebug := by
        rw [readArgs_withDebug, ← List.nil_append after, h₁]
        rfl
      exact readArgs_ready hreported h₂ hexcess
  | cons arg before ih =>
    intro mood r h₁ h₂
    rw [List.cons_append, readArgs_cons] at h₁ h₂
    rcases harg : readArg options mood r arg with e | x
    · rw [harg] at h₁
      cases h₁
    · rw [harg] at h₁ h₂
      exact ih h₁ h₂

/-! ## The option in a command line -/

/-- A command is made only of a request with a file and nothing too much, and with reports
if the request has them. -/
def Reporting (command : Request → Except Refusal Command) : Prop :=
  ∀ (r : Request) (c : Command), command r = .ok c →
    r.file.isSome = true ∧ r.excess = false ∧ command r.withDebug = .ok c.withDebug

theorem reporting_check : Reporting checkCommand := by
  intro r c h
  rcases hfile : r.file with _ | file
  · simp [checkCommand, hfile] at h
  · rcases hexcess : r.excess with _ | _
    · simp only [checkCommand, hfile, hexcess] at h
      cases h
      refine ⟨rfl, rfl, ?_⟩
      simp [checkCommand, Request.withDebug, Command.withDebug, hfile, hexcess]
    · simp [checkCommand, hfile, hexcess] at h

theorem reporting_parse : Reporting parseCommand := by
  intro r c h
  rcases hfile : r.file with _ | file
  · simp [parseCommand, hfile] at h
  · by_cases hwrong : (r.excess || (r.text.isNone && r.input.isNone)) = true
    · simp [parseCommand, hfile, hwrong] at h
    · simp only [parseCommand, hfile, if_neg hwrong] at h
      cases h
      rw [Bool.not_eq_true, Bool.or_eq_false_iff] at hwrong
      refine ⟨rfl, hwrong.1, ?_⟩
      simp [parseCommand, Request.withDebug, Command.withDebug, hfile, hwrong]

section

variable {command : Request → Except Refusal Command} {c c' : Command}
  (hoptions : KnowsDebug options) (hcommand : Reporting command)
include hoptions hcommand

theorem bind_readArgs_insert {before after : List Text}
    (h : (readArgs options (.ready false) {} (before ++ after)).bind command = .ok c)
    (h' : (readArgs options (.ready false) {} (before ++ debugOption :: after)).bind command = .ok c') :
    c' = c.withDebug := by
  rcases hread : readArgs options (.ready false) {} (before ++ after) with e | r₁
  · rw [hread] at h
    cases h
  rcases hread' : readArgs options (.ready false) {} (before ++ debugOption :: after) with e | r₂
  · rw [hread'] at h'
    cases h'
  rw [hread] at h
  rw [hread'] at h'
  obtain ⟨hfile, -, hreported⟩ := hcommand r₁ c h
  have hsame := readArgs_insert hoptions hfile (hcommand r₂ c' h').2.1 before hread hread'
  rw [hsame] at h'
  exact Except.ok.inj (h'.symm.trans hreported)

theorem bind_readArgs_debug {args : List Text}
    (h : (readArgs options (.ready false) {} args).bind command = .ok c) :
    (readArgs options (.ready false) {} (debugOption :: args)).bind command = .ok c.withDebug := by
  rw [readArgs_ready_debug hoptions, readArgs_withDebug]
  rcases hread : readArgs options (.ready false) {} args with e | r₁
  · rw [hread] at h
    cases h
  · rw [hread] at h
    exact (hcommand r₁ c h).2.2

end

/-- The word of a command says which options there are and what is made of the request. -/
theorem readCommand_cases (word : Text) :
    (∃ options command, KnowsDebug options ∧ Reporting command ∧ ∀ args, readCommand word args =
      if anyUnclear options args then .error .wrong
      else (readArgs options (.ready false) {} args).bind command) ∨
    ∀ args, readCommand word args = .error .wrong := by
  by_cases hcheck : word = "check".toText
  · exact .inl ⟨checkOptions, checkCommand, knowsDebug_check, reporting_check,
      fun args => by rw [readCommand, if_pos hcheck]⟩
  by_cases hparse : word = "parse".toText
  · exact .inl ⟨parseOptions, parseCommand, knowsDebug_parse, reporting_parse,
      fun args => by rw [readCommand, if_neg hcheck, if_pos hparse]⟩
  · exact .inr fun args => by rw [readCommand, if_neg hcheck, if_neg hparse]

/-- A command line that is understood begins with the word of its command. -/
theorem ofArgs_eq_ok {args : List Text} {c : Command} (h : ofArgs args = .ok c) :
    ∃ word rest, args = word :: rest ∧ word ≠ optionsEnd ∧ classify outerOptions word = .plain ∧
      readCommand word rest = .ok c := by
  have hexcess : ∀ {x : Except Refusal Command}, excess x ≠ .ok c := by
    intro x h
    rcases x with (_ | _) | _ <;> cases h
  cases args with
  | nil => cases h
  | cons word rest =>
    rw [ofArgs] at h
    split at h
    · cases h
    · next hend =>
      split at h
      · next hplain => exact ⟨word, rest, rfl, hend, hplain, h⟩
      · cases h
      · exact absurd h hexcess
      · split at h
        · exact absurd h hexcess
        · cases h
      · split at h
        · exact absurd h hexcess
        · cases h

theorem ofArgs_cons {word : Text} (hend : word ≠ optionsEnd)
    (hplain : classify outerOptions word = .plain) (rest : List Text) :
    ofArgs (word :: rest) = readCommand word rest := by
  rw [ofArgs, if_neg hend, hplain]

/-- With the option put into it, a command line that is understood asks for the same thing with
reports. -/
theorem ofArgs_insert {before after : List Text} {c c' : Command}
    (h : ofArgs (before ++ after) = .ok c)
    (h' : ofArgs (before ++ debugOption :: after) = .ok c') : c' = c.withDebug := by
  cases before with
  | nil =>
    obtain ⟨word, rest, hargs, -, hplain, -⟩ := ofArgs_eq_ok h'
    cases hargs
    exact absurd hplain (by decide)
  | cons word before =>
    obtain ⟨_, _, hargs, hend, hplain, h⟩ := ofArgs_eq_ok h
    cases hargs
    rw [List.cons_append, ofArgs_cons hend hplain] at h'
    rcases readCommand_cases word with ⟨options, command, hoptions, hcommand, hread⟩ | hwrong
    · rw [hread] at h h'
      split at h
      · cases h
      split at h'
      · cases h'
      exact bind_readArgs_insert hoptions hcommand h h'
    · rw [hwrong] at h
      cases h

/-- Right behind the word of the command the option is understood. -/
theorem ofArgs_second {word : Text} {rest : List Text} {c : Command}
    (h : ofArgs (word :: rest) = .ok c) : ofArgs (word :: debugOption :: rest) = .ok c.withDebug := by
  obtain ⟨_, _, hargs, hend, hplain, h⟩ := ofArgs_eq_ok h
  cases hargs
  rw [ofArgs_cons hend hplain]
  rcases readCommand_cases word with ⟨options, command, hoptions, hcommand, hread⟩ | hwrong
  · have hclear : anyUnclear options (debugOption :: rest) = anyUnclear options rest := by
      rw [anyUnclear, List.takeWhile_cons_of_pos (by decide), List.any_cons, hoptions]
      rfl
    rw [hread] at h ⊢
    rw [hclear]
    split at h
    · cases h
    · next hunclear =>
      rw [if_neg hunclear]
      exact bind_readArgs_debug hoptions hcommand h
  · rw [hwrong] at h
    cases h

end Command

end Pegboard
