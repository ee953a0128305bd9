import Assembly.Proofs.Build.Files
import Assembly.Proofs.CommandLine.Reading

/-!
# The order of arguments

What a command line stands for hardly depends on its order: the words have an order among
themselves, and so have the values of each setting, of which the last one counts.  A rearrangement
that keeps these orders is read alike, and so it is answered alike by every host:
`parseArguments_rearranged`.
-/

namespace Assembly.CommandLine

/-! ## Rearrangements -/

/-- Arguments in one lane have an order among themselves. -/
inductive Lane
  | words
  | values (s : Setting)
deriving DecidableEq, Repr

def Argument.lane? : Argument → Option Lane
  | switch _ => none
  | setting s _ => some (.values s)
  | named _ => some (.values .output)
  | word _ _ => some .words

/-- A permutation that keeps the order of the words and of the values of each setting. -/
structure Rearranged (as bs : List Argument) : Prop where
  perm : as.Perm bs
  lanes : ∀ l : Lane, as.filter (·.lane? = some l) = bs.filter (·.lane? = some l)

namespace Rearranged

variable {as bs : List Argument}

/-- What comes from one lane alone is the same. -/
theorem filterMap_eq (h : Rearranged as bs) (l : Lane) {g : Argument → Option Text}
    (hg : ∀ a, g a ≠ none → a.lane? = some l) : as.filterMap g = bs.filterMap g := by
  have hlane (cs : List Argument) :
      (cs.filter (·.lane? = some l)).filterMap g = cs.filterMap g := by
    rw [List.filterMap_filter]
    refine congrArg (cs.filterMap ·) (funext fun a => ?_)
    by_cases ha : g a = none
    · rw [ha]
      split <;> rfl
    · rw [if_pos (decide_eq_true (hg a ha))]
  rw [← hlane as, h.lanes l, hlane bs]

theorem words_eq (h : Rearranged as bs) :
    as.filterMap Argument.word? = bs.filterMap Argument.word? := by
  refine h.filterMap_eq .words fun a ha => ?_
  cases a with
  | word w plain => rfl
  | _ => exact absurd rfl ha

theorem values_eq (h : Rearranged as bs) (s : Setting) :
    as.filterMap (Argument.value? s) = bs.filterMap (Argument.value? s) := by
  refine h.filterMap_eq (.values s) fun a ha => ?_
  cases a with
  | setting s' value =>
    by_cases hs : s' = s
    · rw [Argument.lane?, hs]
    · exact absurd (if_neg hs) ha
  | named value =>
    by_cases hs : s = .output
    · rw [Argument.lane?, hs]
    · exact absurd (if_neg hs) ha
  | _ => exact absurd rfl ha

theorem reads (h : Rearranged as bs) {f : Flags} (hf : Reads as f) : Reads bs f where
  words := h.words_eq ▸ hf.words
  settings s := h.values_eq s ▸ hf.settings s
  switches s := (hf.switches s).trans h.perm.mem_iff

theorem scan_eq (h : Rearranged as bs) :
    Flags.empty.scan (spell as) = Flags.empty.scan (spell bs) := by
  cases hscan : Flags.empty.scan (spell as) with
  | error e =>
    rw [scan_eq_error_iff, h.words_eq] at hscan
    exact (scan_eq_error_iff.mpr hscan).symm
  | ok f => exact (scan_eq_ok_iff.mpr (h.reads (scan_eq_ok_iff.mp hscan))).symm

end Rearranged

/-! ## Commands -/

/-- A command with the path that it needs.  A script must not be missing from the files. -/
def Runnable (w : Workspace) (f : Flags) : Prop :=
  f.command = "demo" ∧ f.file = [] ∨
    f.command = "build" ∧ f.file ≠ [] ∧ w.find f.file ≠ .error .notFound

/-- The answer of a workspace. -/
def answer {α : Type} (w : Workspace) (m : StateM Workspace α) : α := (m.run w).1

theorem answer_checkCommand_build {w : Workspace} {f : Flags} (hcommand : f.command = "build")
    (hfile : f.file ≠ []) :
    answer w (checkCommand f) = .ok () ↔ w.find f.file ≠ .error .notFound := by
  have hstat : (Host.stat f.file : StateM Workspace (Except PathFault EntryKind)).run w =
      ((w.find f.file).map (·.kind), w) := rfl
  rw [answer, checkCommand, hcommand, if_pos (beq_self_eq_true _),
    if_neg (by simpa using hfile), Workspace.run_bind, hstat]
  cases w.find f.file with
  | ok n => exact iff_of_true rfl fun h => by cases h
  | error x =>
    cases x with
    | notFound => exact iff_of_false (fun h => by cases h) (not_not_intro rfl)
    | _ => exact iff_of_true rfl fun h => by cases h

theorem answer_checkCommand_demo {w : Workspace} {f : Flags} (hcommand : f.command = "demo") :
    answer w (checkCommand f) = .ok () ↔ f.file = [] := by
  have hbuild : ¬(Text.ofString "demo" == Text.ofString "build") = true := by decide
  rw [answer, checkCommand, hcommand, if_neg hbuild, if_pos (beq_self_eq_true _)]
  cases f.file with
  | nil => exact iff_of_true rfl rfl
  | cons b r => exact iff_of_false (fun h => by cases h) (List.cons_ne_nil b r)

theorem answer_checkCommand {w : Workspace} {f : Flags} :
    answer w (checkCommand f) = .ok () ↔ Runnable w f := by
  unfold Runnable
  by_cases hdemo : f.command = Text.ofString "demo"
  · have hbuild : Text.ofString "demo" ≠ Text.ofString "build" := by decide
    rw [answer_checkCommand_demo hdemo]
    simp [hdemo, hbuild]
  by_cases hbuild : f.command = Text.ofString "build"
  · by_cases hfile : f.file = []
    · have hrefused : answer w (checkCommand f) = .error .fileMissing := by
        rw [answer, checkCommand, hbuild, hfile]
        rfl
      rw [hrefused]
      simp [hdemo, hfile]
    · rw [answer_checkCommand_build hbuild hfile]
      simp [hbuild, hfile]
  · have hrefused : ∃ e, answer w (checkCommand f) = .error e := by
      rw [answer, checkCommand, if_neg (by simpa using hbuild), if_neg (by simpa using hdemo)]
      split <;> exact ⟨_, rfl⟩
    obtain ⟨e, he⟩ := hrefused
    rw [he]
    simp [hdemo, hbuild]

theorem parseArguments_eq_ok_iff {as : List Argument} {w : Workspace} {f : Flags} :
    answer w (parseArguments (spell as)) = .ok f ↔ Reads as f ∧ Runnable w f := by
  rw [← scan_eq_ok_iff, ← answer_checkCommand, answer, parseArguments]
  cases Flags.empty.scan (spell as) with
  | error e => exact iff_of_false (fun h => by cases h) fun h => by cases h.1
  | ok g =>
    dsimp only
    rw [Workspace.run_bind, Except.ok.injEq]
    cases hcheck : ((checkCommand g : StateM Workspace (Except ArgError Unit)).run w).1 with
    | error e =>
      refine iff_of_false (fun h => by cases h) ?_
      rintro ⟨rfl, h⟩
      cases hcheck.symm.trans h
    | ok u =>
      show Except.ok g = Except.ok f ↔ _
      rw [Except.ok.injEq]
      exact ⟨fun h => ⟨h, h ▸ hcheck⟩, fun h => h.1⟩

/-- The order of arguments that are not in one lane does not matter: a rearranged command line is
answered alike, with flags or with an error, by every host.  What is accepted is what the arguments
stand for, with the last value of each setting. -/
theorem parseArguments_rearranged {as bs : List Argument} (h : Rearranged as bs) :
    (∀ (m : Type → Type) [Monad m] [Host m],
      (parseArguments (spell as) : m (Except ArgError Flags)) = parseArguments (spell bs)) ∧
    ∀ (w : Workspace) (f : Flags),
      answer w (parseArguments (spell as)) = .ok f ↔ Reads as f ∧ Runnable w f := by
  refine ⟨fun m _ _ => ?_, fun w f => parseArguments_eq_ok_iff⟩
  unfold parseArguments
  rw [h.scan_eq]

/-- The name of the output looks like a switch, one of the words is empty, and a width is given
twice. -/
theorem parseArguments_rearranged_strictName :
    let w := Workspace.new [([Text.ofString "a.asml"], .file [])] [] []
    let as : List Argument :=
      [.setting .output "x", .word "build" (by decide), .setting .bits "16", .word "" (by decide),
        .named "--strict", .word "a.asml" (by decide), .switch .debug, .setting .bits "32"]
    let bs : List Argument :=
      [.switch .debug, .setting .bits "16", .setting .bits "32", .setting .output "x",
        .named "--strict", .word "build" (by decide), .word "" (by decide),
        .word "a.asml" (by decide)]
    let f : Flags :=
      { Flags.empty with
        command := "build", file := "a.asml", bits := "32", output := "--strict", debug := true }
    Rearranged as bs ∧ answer w (parseArguments (spell as)) = .ok f ∧
      answer w (parseArguments (spell bs)) = .ok f := by
  intro w as bs f
  have h : Rearranged as bs := ⟨by decide, fun l => by rcases l with _ | (_ | _ | _) <;> decide⟩
  have hreads : Reads as f :=
    ⟨rfl, fun s => by cases s <;> rfl, fun s => by cases s <;> decide⟩
  have hfind : w.find f.file = .ok (.file []) := rfl
  have hrunnable : Runnable w f := .inr ⟨rfl, by decide, fun hno => by cases hfind.symm.trans hno⟩
  obtain ⟨hsame, haccepts⟩ := parseArguments_rearranged h
  have hok := (haccepts w f).mpr ⟨hreads, hrunnable⟩
  exact ⟨h, hok, hsame (StateM Workspace) ▸ hok⟩

end Assembly.CommandLine
