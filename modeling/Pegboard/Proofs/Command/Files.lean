import Pegboard.Command.Run

/-!
# The files of a run

A file name may hold anything but a NUL and the surrogates that stand for no byte
(`IsFileName`).  Looking for the file of such a name is looking it up, and cleaning a path
makes no other name of it (`IsFileName.normalPath`).

What is found is one of three things: nothing that can be opened, a file that is not UTF-8,
or a text.  The run goes on with the text, and for each of the others it is over.
-/

namespace Pegboard.Command

/-! ## Files -/

/-- Nothing that can be opened is found. -/
def File.Unopened (file : File) : Prop := ∀ content, file ≠ .bytes content

/-- A file is found that is not UTF-8. -/
def File.Garbled (file : File) : Prop :=
  ∃ content, file = .bytes content ∧ Text.ofUtf8? content = none

/-- A file is found that holds a text, whose line ends are line feeds once it is read. -/
def File.Holds (file : File) (text : Text) : Prop :=
  ∃ content raw, file = .bytes content ∧ Text.ofUtf8? content = some raw ∧ text = raw.unixLines

theorem File.cases (file : File) : file.Unopened ∨ file.Garbled ∨ ∃ text, file.Holds text := by
  cases file with
  | refused reason => exact .inl nofun
  | bytes content =>
    rcases htext : Text.ofUtf8? content with _ | raw
    · exact .inr (.inl ⟨content, rfl, htext⟩)
    · exact .inr (.inr ⟨_, content, raw, rfl, htext, rfl⟩)

theorem fileText_garbled {content : List Nat} (h : Text.ofUtf8? content = none) :
    fileText content = .error .notUtf8 := by
  rw [fileText, h]

theorem fileText_holds {content : List Nat} {raw : Text} (h : Text.ofUtf8? content = some raw) :
    fileText content = .ok raw.unixLines := by
  rw [fileText, h]

/-! ## File names -/

/-- A file can have the name: there is no NUL in it, and no surrogate but those that stand in
for a byte. -/
def IsFileName (name : Text) : Prop := name.all inFileNames = true ∧ .char '\x00' ∉ name

instance (name : Text) : Decidable (IsFileName name) :=
  inferInstanceAs (Decidable (name.all inFileNames = true ∧ .char '\x00' ∉ name))

/-- What is found under a name. -/
def found (files : Text → File) (name : Text) : File :=
  if name.isEmpty then .missing else files name

theorem findFile_of_isFileName {name : Text} (h : IsFileName name) (files : Text → File) :
    findFile files name = .ok (found files name) := by
  simp [findFile, h.1, h.2, found]

theorem mem_of_mem_pathParts {path part : Text} {c : Codepoint} (hpart : part ∈ pathParts path)
    (hc : c ∈ part) : c ∈ path := by
  induction path generalizing part with
  | nil =>
    rw [pathParts, List.mem_singleton] at hpart
    rwa [← hpart]
  | cons first rest ih =>
    rw [pathParts] at hpart
    split at hpart
    · rw [List.mem_singleton] at hpart
      subst hpart
      exact List.mem_cons.2 (.inl (List.mem_singleton.1 hc))
    · next head parts hparts =>
      have hrest : ∀ p ∈ head :: parts, c ∈ p → c ∈ first :: rest :=
        fun p hp hcp => List.mem_cons_of_mem _ (ih (hparts ▸ hp) hcp)
      split at hpart
      · rcases List.mem_cons.1 hpart with rfl | hpart
        · cases hc
        · exact hrest _ hpart hc
      · rcases List.mem_cons.1 hpart with rfl | hpart
        · rcases List.mem_cons.1 hc with rfl | hc
          · exact List.mem_cons_self
          · exact hrest head List.mem_cons_self hc
        · exact hrest _ (List.mem_cons_of_mem _ hpart) hc

theorem mem_join {separator : Text} {pieces : List Text} {c : Codepoint}
    (h : c ∈ Text.join separator pieces) : c ∈ separator ∨ ∃ piece ∈ pieces, c ∈ piece := by
  fun_induction Text.join separator pieces with
  | case1 => cases h
  | case2 piece => exact .inr ⟨piece, List.mem_singleton_self _, h⟩
  | case3 piece rest hne ih =>
    rcases List.mem_append.1 h with h | h
    · rcases List.mem_append.1 h with h | h
      · exact .inr ⟨piece, List.mem_cons_self, h⟩
      · exact .inl h
    · rcases ih h with h | ⟨p, hp, h⟩
      · exact .inl h
      · exact .inr ⟨p, List.mem_cons_of_mem _ hp, h⟩

theorem mem_rootSlashes {path : Text} {c : Codepoint} (h : c ∈ rootSlashes path) :
    c = .char '/' := by
  unfold rootSlashes at h
  split at h
  · split at h <;> simpa [String.toText] using h
  · simpa [String.toText] using h
  · cases h

/-- Cleaning a path brings nothing into it but slashes and a point. -/
theorem mem_normalPath {path : Text} {c : Codepoint} (h : c ∈ normalPath path) :
    c ∈ path ∨ c = .char '/' ∨ c = .char '.' := by
  rw [normalPath] at h
  split at h
  · exact .inr (.inr (List.mem_singleton.1 h))
  · rcases List.mem_append.1 h with h | h
    · exact .inr (.inl (mem_rootSlashes h))
    · rcases mem_join h with h | ⟨part, hpart, hc⟩
      · exact .inr (.inl (List.mem_singleton.1 h))
      · exact .inl (mem_of_mem_pathParts (List.mem_filter.1 hpart).1 hc)

theorem normalPath_ne_nil (path : Text) : normalPath path ≠ [] := by
  rw [normalPath]
  split
  · exact nofun
  · assumption

theorem IsFileName.normalPath {path : Text} (h : IsFileName path) :
    IsFileName (normalPath path) := by
  refine ⟨List.all_eq_true.2 fun c hc => ?_, fun hnull => ?_⟩
  · rcases mem_normalPath hc with hc | rfl | rfl
    · exact List.all_eq_true.1 h.1 c hc
    · rfl
    · rfl
  · rcases mem_normalPath hnull with hnull | hnull | hnull
    · exact h.2 hnull
    · cases hnull
    · cases hnull

/-! ## Opening a file -/

/-- A run ends with an exit code or an error after a text was printed. -/
def Report.Ends (report : Report) (exit : Except Error Nat) (out : Text) : Prop :=
  report.exit = exit ∧ report.out = out

@[simp] theorem Printed.out_note (p : Printed) (line : Text) : (p.note line).out = p.out := rfl

@[simp] theorem Printed.out_debug (p : Printed) (on : Bool) (line : Text) :
    (p.debug on line).out = p.out := by
  cases on <;> rfl

section

variable {files : Text → File} {p : Printed} {name : Text} {next : Text → Report}
  (hname : IsFileName name)
include hname

theorem withText_unopened (hp : p.out = []) (h : (found files name).Unopened) :
    (withText p files name next).Ends (.ok 2) [] := by
  rw [withText, findFile_of_isFileName hname]
  cases hfile : found files name with
  | refused reason => exact ⟨rfl, hp⟩
  | bytes content => exact absurd hfile (h content)

theorem withText_garbled (hp : p.out = []) (h : (found files name).Garbled) :
    (withText p files name next).Ends (.error .notUtf8) [] := by
  obtain ⟨content, hfile, htext⟩ := h
  rw [withText, findFile_of_isFileName hname, hfile]
  simp only [fileText_garbled htext]
  exact ⟨rfl, hp⟩

/-- Once a file is read, the run goes on with its text. -/
theorem withText_holds {text : Text} (h : (found files name).Holds text) :
    withText p files name next = next text := by
  obtain ⟨content, raw, hfile, htext, rfl⟩ := h
  rw [withText, findFile_of_isFileName hname, hfile]
  simp only [fileText_holds htext]

end

theorem found_normalPath (files : Text → File) (path : Text) :
    found files (normalPath path) = files (normalPath path) := by
  rw [found, if_neg (by simpa using normalPath_ne_nil path)]

end Pegboard.Command
