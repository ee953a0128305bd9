import Assembly.Proofs.Build.Course
import Assembly.Proofs.Build.Names
import Assembly.Proofs.Engine.Part

/-!
# The stages of a build

The assembler runs on the assembly file of a program that came to its end, the linker on what the
assembler made, and what a build says it has made is what these runs have left:
`run_disciplined`.  The tools are free to write what they are told to.

Which tools are missing is asked before it is known how far the build will go.  So a build that is
not to link stops short where there is no linker, and `skipLink_blind_iff` says when it does not
matter.
-/

namespace Assembly

namespace Build

open Workspace

variable {ε : Type}

/-! ## The ends of a build -/

/-- The tool is there, and ends well. -/
def Succeeds (tools : List (Text × Tool)) (tool : Text) : Prop :=
  ∃ t, tools.lookup tool = some t ∧ t.exit = 0

/-- The tools for a target are there.  A flat binary is not linked. -/
def Complete (target : Target) (tools : List (Text × Tool)) : Prop :=
  (tools.lookup (Text.ofString "nasm")).isSome ∧
    (target.objectFormat ≠ .bin → (tools.lookup (Text.ofString "ld")).isSome)

/-- The word that the assembler has for the format of a target. -/
def formatWord : Target → Text
  | .bits16 => "bin"
  | .bits32 => "elf32"
  | .bits64 => "elf64"

def assemblerLine (o : BuildOptions) : List Text :=
  ["nasm", "-f", formatWord o.target, "-o", o.toolchain.objFile, o.toolchain.asmFile]

def linkerLine (o : BuildOptions) : List Text :=
  if o.target = .bits32 then
    ["ld", "-m", "elf_i386", "-o", o.toolchain.exeFile, o.toolchain.objFile]
  else ["ld", "-o", o.toolchain.exeFile, o.toolchain.objFile]

theorem assembleCommand_eq (o : BuildOptions) :
    Toolchain.assembler :: o.toolchain.assembleArgs = assemblerLine o := by
  have htarget : o.toolchain.target = o.target := rfl
  rw [Toolchain.assembleArgs, assemblerLine, htarget]
  cases o.target <;> rfl

theorem linkCommand_eq (o : BuildOptions) :
    Toolchain.linker :: o.toolchain.linkArgs = linkerLine o := by
  have htarget : o.toolchain.target = o.target := rfl
  rw [Toolchain.linkArgs, linkerLine, htarget]
  split <;> rfl

theorem outputOf?_assemblerLine (o : BuildOptions) :
    outputOf? (assemblerLine o) = some o.toolchain.objFile := by
  have hformat : formatWord o.target ≠ Text.ofString "-o" := by cases o.target <;> decide
  have hnasm : Text.ofString "nasm" ≠ Text.ofString "-o" := by decide
  have hf : Text.ofString "-f" ≠ Text.ofString "-o" := by decide
  simp only [assemblerLine, outputOf?, if_neg hnasm, if_neg hf, if_neg hformat, if_true]

theorem outputOf?_linkerLine (o : BuildOptions) :
    outputOf? (linkerLine o) = some o.toolchain.exeFile := by
  have hld : Text.ofString "ld" ≠ Text.ofString "-o" := by decide
  have hm : Text.ofString "-m" ≠ Text.ofString "-o" := by decide
  have hmode : Text.ofString "elf_i386" ≠ Text.ofString "-o" := by decide
  unfold linkerLine
  split
  · simp only [outputOf?, if_neg hld, if_neg hm, if_neg hmode, if_true]
  · simp only [outputOf?, if_neg hld, if_true]

/-- What a build has made when it ends, well or not. -/
def made : Except (BuildError ε) Artifacts → Option Artifacts
  | .ok a => some a
  | .error e => e.artifacts?

theorem missing_eq_nil_iff (target : Target) (tools : List (Text × Tool)) :
    missing target tools = [] ↔ Complete target tools := by
  have hlink : target.objectFormat ≠ .bin ↔ target.needsLink = true := by simp [Target.needsLink]
  unfold missing Complete
  rw [hlink]
  change _ ↔ (tools.lookup Toolchain.assembler).isSome = true ∧
    (target.needsLink = true → (tools.lookup Toolchain.linker).isSome = true)
  cases (tools.lookup Toolchain.assembler).isSome <;> cases target.needsLink <;>
    cases (tools.lookup Toolchain.linker).isSome <;> decide

theorem stage_cases {tools : List (Text × Tool)} {tool : Text}
    (h : (tools.lookup tool).isSome) (s : Stage) (args : List Text) :
    (Succeeds tools tool ∧ stage tools s tool args = (.ok (), [tool :: args])) ∨
      (¬ Succeeds tools tool ∧ ∃ e, stage tools s tool args = (.error e, [tool :: args])) := by
  obtain ⟨t, ht⟩ := Option.isSome_iff_exists.1 h
  unfold stage Succeeds
  rw [ht]
  by_cases hexit : t.exit = 0
  · exact .inl ⟨⟨t, rfl, hexit⟩, by simp only [if_pos hexit]⟩
  · refine .inr ⟨?_, .failed s ⟨t.exit, t.stderr⟩, by simp only [if_neg hexit]⟩
    rintro ⟨u, hu, hzero⟩
    cases hu
    exact hexit hzero

/-- The ways from an assembly file to the end of a build, with the commands that are run. -/
inductive Finishes (o : BuildOptions) (tools : List (Text × Tool)) (done : Artifacts) :
    Except (BuildError ε) Artifacts → List (List Text) → Prop
  | text (hasm : o.asmOnly = true) : Finishes o tools done (.ok done) []
  | stopped (hasm : o.asmOnly = false) (hall : ¬ Complete o.target tools) :
    Finishes o tools done (.ok { done with missing := missing o.target tools }) []
  | unassembled (e : ToolError) (hasm : o.asmOnly = false) (hall : Complete o.target tools)
      (hfail : ¬ Succeeds tools "nasm") :
    Finishes o tools done (.error (.assembly done e)) [assemblerLine o]
  | flat (hasm : o.asmOnly = false) (hall : Complete o.target tools)
      (hok : Succeeds tools "nasm") (hlink : o.target.needsLink = false) :
    Finishes o tools done
      (.ok { done with objFile := some o.toolchain.objFile, exeFile := some o.toolchain.objFile })
      [assemblerLine o]
  | object (hasm : o.asmOnly = false) (hall : Complete o.target tools)
      (hok : Succeeds tools "nasm") (hlink : o.target.needsLink = true)
      (hskip : o.skipLink = true) :
    Finishes o tools done (.ok { done with objFile := some o.toolchain.objFile })
      [assemblerLine o]
  | unlinked (e : ToolError) (hasm : o.asmOnly = false) (hall : Complete o.target tools)
      (hok : Succeeds tools "nasm") (hlink : o.target.needsLink = true)
      (hskip : o.skipLink = false) (hfail : ¬ Succeeds tools "ld") :
    Finishes o tools done (.error (.linking { done with objFile := some o.toolchain.objFile } e))
      [assemblerLine o, linkerLine o]
  | executable (hasm : o.asmOnly = false) (hall : Complete o.target tools)
      (hok : Succeeds tools "nasm") (hlink : o.target.needsLink = true)
      (hskip : o.skipLink = false) (hdone : Succeeds tools "ld") :
    Finishes o tools done
      (.ok { done with objFile := some o.toolchain.objFile, exeFile := some o.toolchain.exeFile })
      [assemblerLine o, linkerLine o]

theorem assembled_finishes {o : BuildOptions} {tools : List (Text × Tool)}
    (hasm : o.asmOnly = false) (hall : Complete o.target tools) (done : Artifacts) :
    Finishes (ε := ε) o tools done (assembled o tools done).1
      (assembled (ε := ε) o tools done).2 := by
  have hassembler : (tools.lookup Toolchain.assembler).isSome := hall.1
  unfold assembled
  obtain ⟨hok, hstage⟩ | ⟨hfail, e, hstage⟩ :=
    stage_cases hassembler .assemble o.toolchain.assembleArgs
  · rw [hstage, assembleCommand_eq]
    dsimp only
    cases hlink : o.target.needsLink with
    | false => exact .flat hasm hall hok hlink
    | true =>
      cases hskip : o.skipLink with
      | true => exact .object hasm hall hok hlink hskip
      | false =>
        have hlinker : (tools.lookup Toolchain.linker).isSome :=
          hall.2 (by simpa [Target.needsLink] using hlink)
        unfold linked
        obtain ⟨hdone, hstage⟩ | ⟨hfail, e, hstage⟩ :=
          stage_cases hlinker .link o.toolchain.linkArgs
        · rw [hstage, linkCommand_eq]
          exact .executable hasm hall hok hlink hskip hdone
        · rw [hstage, linkCommand_eq]
          exact .unlinked e hasm hall hok hlink hskip hfail
  · rw [hstage, assembleCommand_eq]
    exact .unassembled e hasm hall hfail

theorem finish_finishes (o : BuildOptions) (tools : List (Text × Tool)) (done : Artifacts) :
    Finishes (ε := ε) o tools done (finish o tools done).1 (finish (ε := ε) o tools done).2 := by
  unfold finish
  cases hasm : o.asmOnly with
  | true => exact .text hasm
  | false =>
    by_cases hall : missing o.target tools = []
    · rw [if_neg Bool.false_ne_true, if_pos hall]
      exact assembled_finishes hasm ((missing_eq_nil_iff _ _).1 hall) done
    · rw [if_neg Bool.false_ne_true, if_neg hall]
      exact .stopped hasm fun h => hall ((missing_eq_nil_iff _ _).2 h)

/-- Before the assembly file is written, a build has made nothing.  If it is written, the program
has come to its end. -/
theorem prepare_cases (o : BuildOptions) (p : Program ε) (t : FileTree) (cwd : List Text) :
    (∃ x t', prepare o p t cwd = (.error x, t') ∧ x.artifacts? = none ∧ t.SameFiles t') ∨
      ∃ e t₁ t', p (.new o.target o.strict) = (.ok (), e) ∧ e.current = none ∧ t.SameFiles t₁ ∧
        t₁.putFile cwd o.toolchain.asmFile e.program = .ok t' ∧
        prepare o p t cwd = (.ok ⟨e.program, o.toolchain.asmFile, none, none, e.dump, []⟩, t') := by
  unfold prepare
  have hdirs : t.SameFiles
      (filesRun (Host.makeDirsFrom (Path.ancestors o.directory)) t cwd).2 :=
    KeepsFiles.makeDirsFrom _ (.new t cwd [])
  generalize filesRun (Host.makeDirsFrom (Path.ancestors o.directory)) t cwd = ending
    at hdirs ⊢
  obtain ⟨answer, t₁⟩ := ending
  cases answer with
  | error x => exact .inl ⟨_, t₁, rfl, rfl, hdirs⟩
  | ok _ =>
    dsimp only
    unfold emitted
    obtain ⟨outcome, e⟩ := p (.new o.target o.strict)
    cases outcome with
    | error err => exact .inl ⟨_, t₁, rfl, rfl, hdirs⟩
    | ok _ =>
      dsimp only
      cases hcur : e.current with
      | some f => exact .inl ⟨_, t₁, rfl, rfl, hdirs⟩
      | none =>
        dsimp only
        cases hput : t₁.putFile cwd o.toolchain.asmFile e.program with
        | error f => exact .inl ⟨_, t₁, rfl, rfl, hdirs⟩
        | ok t' => exact .inr ⟨e, t₁, t', rfl, hcur, hdirs, hput, rfl⟩

variable {logger : Logger (StateM Workspace)}

/-- A build ends before there is an assembly file and leaves the files alone, or it writes the
file and goes on from there. -/
theorem run_cases (hq : Logger.Quiet logger) (o : BuildOptions) (p : Program ε) (w : Workspace)
    {r : Except (BuildError ε) Artifacts} {w' : Workspace} (h : (run logger o p).run w = (r, w')) :
    (∃ x, r = .error x ∧ x.artifacts? = none ∧ w'.commands = w.commands ∧
        w.tree.SameFiles w'.tree) ∨
      ∃ e t t' cmds, p (.new o.target o.strict) = (.ok (), e) ∧ e.current = none ∧
        w.tree.SameFiles t ∧ t.putFile w.cwd o.toolchain.asmFile e.program = .ok t' ∧
        w'.tree = w.treeAfter cmds t' ∧ w'.cwd = w.cwd ∧ w'.commands = w.commands ++ cmds ∧
        Finishes o w.tools ⟨e.program, o.toolchain.asmFile, none, none, e.dump, []⟩ r cmds := by
  obtain ⟨hanswer, hran⟩ := run_course hq o p w
  rw [h] at hanswer hran
  dsimp only at hanswer hran
  subst hanswer
  unfold course at hran ⊢
  obtain ⟨x, t', hprep, hx, hfiles⟩ | ⟨e, t, t', hp, hcur, hfiles, hput, hprep⟩ :=
    prepare_cases o p w.tree w.cwd
  · rw [hprep] at hran ⊢
    refine .inl ⟨x, rfl, hx, hran.commands.trans (List.append_nil _), ?_⟩
    rw [hran.tree]
    exact hfiles
  · rw [hprep] at hran ⊢
    exact .inr ⟨e, t, t', _, hp, hcur, hfiles, hput, hran.tree, hran.cwd, hran.commands,
      finish_finishes ..⟩

/-- The text and its file are made first and stay as they are. -/
theorem Finishes.made_eq {o : BuildOptions} {tools : List (Text × Tool)} {done : Artifacts}
    {r : Except (BuildError ε) Artifacts} {cmds : List (List Text)}
    (h : Finishes o tools done r cmds) :
    ∃ a, made r = some a ∧ a.asm = done.asm ∧ a.asmFile = done.asmFile := by
  cases h <;> exact ⟨_, rfl, rfl, rfl⟩

/-! ## Discipline -/

/-- How the commands of a build that ends with `r`, and what it has made, go together. -/
structure Disciplined (o : BuildOptions) (tools : List (Text × Tool))
    (r : Except (BuildError ε) Artifacts) (cmds : List (List Text)) : Prop where
  order : cmds <+: [assemblerLine o, linkerLine o]
  idle : made r = none ∨ o.asmOnly = true ∨ ¬ Complete o.target tools → cmds = []
  assembles : made r ≠ none → o.asmOnly = false → Complete o.target tools → assemblerLine o ∈ cmds
  links : linkerLine o ∈ cmds ↔ assemblerLine o ∈ cmds ∧ Succeeds tools "nasm" ∧
    o.target.objectFormat ≠ .bin ∧ o.skipLink = false
  object : ∀ a, made r = some a → ∀ f, (a.objFile = some f ↔
    o.toolchain.objFile = f ∧ assemblerLine o ∈ cmds ∧ Succeeds tools "nasm")
  executable : ∀ a, made r = some a → ∀ f, (a.exeFile = some f ↔ a.objFile ≠ none ∧
    (o.target.objectFormat = .bin ∧ o.toolchain.objFile = f ∨
      linkerLine o ∈ cmds ∧ Succeeds tools "ld" ∧ o.toolchain.exeFile = f))
  flat : ∀ a, made r = some a → o.target.objectFormat = .bin → a.exeFile = a.objFile

theorem linkerLine_ne_assemblerLine (o : BuildOptions) : linkerLine o ≠ assemblerLine o := by
  have hne : Text.ofString "ld" ≠ Text.ofString "nasm" := by decide
  unfold linkerLine assemblerLine
  split <;> exact fun h => hne (List.cons.inj h).1

/-- A build that has made nothing runs nothing. -/
theorem disciplined_of_artifacts?_eq_none {o : BuildOptions} {tools : List (Text × Tool)}
    {x : BuildError ε} (hx : x.artifacts? = none) : Disciplined o tools (.error x) [] where
  order := List.nil_prefix
  idle _ := rfl
  assembles h := absurd hx h
  links := by simp
  object a h := by simp [made, hx] at h
  executable a h := by simp [made, hx] at h
  flat a h := by simp [made, hx] at h

theorem Finishes.disciplined {o : BuildOptions} {tools : List (Text × Tool)} {done : Artifacts}
    {r : Except (BuildError ε) Artifacts} {cmds : List (List Text)}
    (h : Finishes o tools done r cmds) (hobj : done.objFile = none) (hexe : done.exeFile = none) :
    Disciplined o tools r cmds := by
  have hne := linkerLine_ne_assemblerLine o
  have hbin : o.target.objectFormat = .bin ↔ o.target.needsLink = false := by
    simp [Target.needsLink]
  -- The hypotheses of each way answer every question that a field asks.
  cases h with
  | unassembled | unlinked => constructor <;> simp_all [made, BuildError.artifacts?]
  | text | stopped | flat | object | executable => constructor <;> simp_all [made]

/-- The tools are told to write files of the build, and never the assembly file. -/
theorem Finishes.writes {o : BuildOptions} {tools : List (Text × Tool)} {done : Artifacts}
    {r : Except (BuildError ε) Artifacts} {cmds : List (List Text)}
    (h : Finishes o tools done r cmds) {cmd : List Text} (hcmd : cmd ∈ cmds) :
    ∃ ext, outputOf? cmd = some (o.directory ++ 47 :: (o.baseName ++ ext)) ∧
      Path.isName (o.baseName ++ ext) ∧ ext ≠ o.target.asmExtension := by
  obtain ⟨-, hobj, hexe⟩ := BuildOptions.slash_notMem_extension o.target
  have hcases : cmd = assemblerLine o ∨ cmd = linkerLine o := by
    cases h with
    | text | stopped => cases hcmd
    | unlinked | executable => simpa using hcmd
    | _ => exact .inl (List.mem_singleton.mp hcmd)
  rcases hcases with rfl | rfl
  · refine ⟨_, by rw [outputOf?_assemblerLine, o.objFile_eq], o.isName_baseName_append hobj, ?_⟩
    cases o.target <;> decide
  · refine ⟨_, by rw [outputOf?_linkerLine, o.exeFile_eq], o.isName_baseName_append hexe, ?_⟩
    cases o.target <;> decide

/-- The assembly file is as it was written when the tools have run. -/
theorem Finishes.find_asmFile {o : BuildOptions} {w : Workspace} {done : Artifacts}
    {r : Except (BuildError ε) Artifacts} {cmds : List (List Text)}
    (h : Finishes o w.tools done r cmds) (hw : w.Obedient) {t t' : FileTree} {text : Text}
    (hput : t.putFile w.cwd o.toolchain.asmFile text = .ok t') :
    (w.treeAfter cmds t').find w.cwd o.toolchain.asmFile = .ok (.file text) := by
  obtain ⟨q, hplace, hnode, rfl⟩ := FileTree.putFile_ok hput
  have hne : q ≠ [] := fun he => hnode (by simp [he, FileTree.get?])
  have hplace' := t.place_insert (.file text) hplace hnode
  refine FileTree.find_eq_ok (hw.place hplace') ?_
  rw [o.asmFile_eq] at hplace'
  obtain ⟨d, hd, -, rfl⟩ := FileTree.place_child _ o.directory_ne_nil
    (o.isName_baseName_append (BuildOptions.slash_notMem_extension o.target).1) hplace'
  rw [hw.get? o.directory_ne_nil hd, t.get?_insert _ hne]
  intro cmd hcmd
  obtain ⟨ext, hout, hname, hother⟩ := h.writes hcmd
  refine ⟨_, hout, hname, fun heq => hother ?_⟩
  simpa using heq.symm

/-- For every program, all options, files and tools: the commands of a build and what it has made
go together.  A program that fails or leaves a function open leaves no trace in the files.  The text
that a build has made is that of the engine; it is in its file, also when the tools have written
what they were told to. -/
theorem run_disciplined (hq : Logger.Quiet logger)
    (o : BuildOptions) (p : Program ε) (w : Workspace) {r : Except (BuildError ε) Artifacts}
    {w' : Workspace} (hrun : (run logger o p).run w = (r, w')) :
    ∃ cmds, w'.commands = w.commands ++ cmds ∧ Disciplined o w.tools r cmds ∧
      ((∀ e, p (.new o.target o.strict) = (.ok (), e) → e.current ≠ none) →
        made r = none ∧ w.tree.SameFiles w'.tree) ∧
      ∀ a, made r = some a → ∃ e, p (.new o.target o.strict) = (.ok (), e) ∧
        (Emit.finalize e).1 = .ok a.asm ∧ a.asmFile = o.toolchain.asmFile ∧
        (w.Obedient → w'.contentAt a.asmFile = .ok a.asm) := by
  obtain ⟨x, rfl, hx, hcmds, hfiles⟩ |
    ⟨e, t, t', cmds, hp, hcur, -, hput, htree, hcwd, hcmds, hends⟩ := run_cases hq o p w hrun
  · refine ⟨[], by rw [hcmds, List.append_nil], disciplined_of_artifacts?_eq_none hx,
      fun _ => ⟨hx, hfiles⟩, ?_⟩
    intro a ha
    simp [made, hx] at ha
  · refine ⟨cmds, hcmds, hends.disciplined rfl rfl, fun hopen => absurd hcur (hopen e hp), ?_⟩
    intro a ha
    obtain ⟨b, hb, hasm, hfile⟩ := hends.made_eq
    obtain rfl : b = a := Option.some.inj (hb.symm.trans ha)
    refine ⟨e, hp, ?_, hfile, fun hw => ?_⟩
    · rw [Emit.finalize_run, hasm]
    · unfold contentAt Workspace.find
      rw [hasm, hfile, hcwd, htree, hends.find_asmFile hw hput]
      rfl

/-- A linker that fails, after an assembler that has written an object file: the assembly file is
still what it was. -/
theorem run_disciplined_failing_linker :
    let p : Program Empty := fun e => (.ok (), e)
    let w := { Workspace.new [] [] [("nasm", ⟨0, [], []⟩), ("ld", ⟨1, [], "bad\n"⟩)] with
      effect := Workspace.writing [] "made" }
    let logger : Logger (StateM Workspace) := CommandLine.logger false
    let out := (run logger .default p).run w
    Logger.Quiet logger ∧ w.Obedient ∧ out.2.commands.length = 2 ∧
      (out.2.contentAt BuildOptions.default.toolchain.objFile).toOption = some "made" ∧
      ∃ cmds a, out.2.commands = w.commands ++ cmds ∧ Disciplined .default w.tools out.1 cmds ∧
        made out.1 = some a ∧ out.2.contentAt a.asmFile = .ok a.asm := by
  intro p w logger out
  have hq : Logger.Quiet logger := CommandLine.logger_quiet false
  have hw : w.Obedient := Workspace.obedient_writing (.new [] [] w.tools) "made"
  obtain ⟨a, ha⟩ : ∃ a, made out.1 = some a := Option.isSome_iff_exists.mp (by decide +kernel)
  obtain ⟨cmds, hcmds, hdisc, -, hmade⟩ := run_disciplined hq .default p w (Prod.eta out).symm
  obtain ⟨e, -, -, -, hcontent⟩ := hmade a ha
  exact ⟨hq, hw, by decide +kernel, by decide +kernel, cmds, a, hcmds, hdisc, ha, hcontent hw⟩

/-! ## Builds without a linker -/

end Build

namespace Workspace

variable (w : Workspace) {name q : Text} (tool : Tool)

/-- The workspace with a tool installed. -/
def withTool (name : Text) (tool : Tool) : Workspace :=
  { w with tools := (name, tool) :: w.tools }

/-- The workspace with a tool taken away. -/
def withoutTool (name : Text) : Workspace :=
  { w with tools := w.tools.filter (·.1 != name) }

@[simp]
theorem lookup_withTool : (w.withTool name tool).tools.lookup name = some tool := by
  simp [withTool]

theorem lookup_withTool_of_ne (h : q ≠ name) :
    (w.withTool name tool).tools.lookup q = w.tools.lookup q := by
  unfold withTool
  rw [List.lookup_cons, show (q == name) = false from by simpa using h]

@[simp]
theorem lookup_withoutTool : (w.withoutTool name).tools.lookup name = none :=
  lookup_filter_self w.tools name

theorem lookup_withoutTool_of_ne (h : q ≠ name) :
    (w.withoutTool name).tools.lookup q = w.tools.lookup q := lookup_filter_ne w.tools h

end Workspace

namespace Build

theorem linker_mem_missing_iff (target : Target) (tools : List (Text × Tool)) :
    Text.ofString "ld (linker)" ∈ missing target tools ↔
      target.needsLink = true ∧ tools.lookup Toolchain.linker = none := by
  have hnames : Text.ofString "ld (linker)" ≠ Toolchain.assembler := by decide
  unfold missing
  cases tools.lookup Toolchain.assembler <;> cases target.needsLink <;>
    cases tools.lookup Toolchain.linker <;> simp [hnames]

/-- If nothing is linked, the linker matters only as one of the tools that can be missing. -/
theorem finish_congr {o : BuildOptions} {tools tools' : List (Text × Tool)}
    (hskip : o.skipLink = true)
    (hassembler : tools.lookup Toolchain.assembler = tools'.lookup Toolchain.assembler)
    (hmissing : missing o.target tools = missing o.target tools') (done : Artifacts) :
    finish (ε := ε) o tools done = finish o tools' done := by
  unfold finish assembled stage
  rw [hskip, hassembler, hmissing]
  rfl

theorem Finishes.linker_notMem_missing {o : BuildOptions} {tools : List (Text × Tool)}
    {done a : Artifacts} {r : Except (BuildError ε) Artifacts} {cmds : List (List Text)}
    (h : Finishes o tools done r cmds) (hnew : done.missing = [])
    (hlinker : tools.lookup Toolchain.linker ≠ none) (ha : made r = some a) :
    Text.ofString "ld (linker)" ∉ a.missing := by
  cases h with
  | stopped hasm hall =>
    cases ha
    exact fun hmem => hlinker ((linker_mem_missing_iff _ _).1 hmem).2
  | _ =>
    cases ha
    simp [hnew]

/-- A build goes no further than to the assembly file, whatever tools there are. -/
def EndsEarly (logger : Logger (StateM Workspace)) (o : BuildOptions) (p : Program ε)
    (w : Workspace) : Prop :=
  o.asmOnly = true ∨ ∃ x, ((run logger { o with asmOnly := true } p).run w).1 = .error x

theorem endsEarly_iff (hq : Logger.Quiet logger) (o : BuildOptions) (p : Program ε)
    (w : Workspace) :
    EndsEarly logger o p w ↔
      o.asmOnly = true ∨ ∃ x, (prepare o p w.tree w.cwd).1 = .error x := by
  unfold EndsEarly
  have hcourse : (course { o with asmOnly := true } p w).1 = (prepare o p w.tree w.cwd).1 := by
    show (proceed { o with asmOnly := true } w.tools (prepare o p w.tree w.cwd).1).1 = _
    cases (prepare o p w.tree w.cwd).1 <;> rfl
  rw [(run_course hq { o with asmOnly := true } p w).1, hcourse]

/-- Without a linker, what needs one is not even assembled. -/
theorem finish_of_linker_missing {o : BuildOptions} {tools : List (Text × Tool)}
    (hlink : o.target.needsLink = true) (hasm : o.asmOnly = false)
    (hnone : tools.lookup Toolchain.linker = none) (done : Artifacts) :
    finish (ε := ε) o tools done =
      (.ok { done with missing := missing o.target tools }, []) := by
  have hmissing : missing o.target tools ≠ [] :=
    List.ne_nil_of_mem ((linker_mem_missing_iff _ _).2 ⟨hlink, hnone⟩)
  unfold finish
  rw [hasm, if_neg Bool.false_ne_true, if_neg hmissing]

section Linker

variable {o : BuildOptions} {w : Workspace} {r : Except (BuildError ε) Artifacts}

theorem proceed_blind (hskip : o.skipLink = true) (ld : Tool)
    (h : o.target.needsLink = false ∨ o.asmOnly = true ∨ ∃ x, r = .error x) :
    proceed o (w.withTool Toolchain.linker ld).tools r =
      proceed o (w.withoutTool Toolchain.linker).tools r := by
  have hne : Toolchain.assembler ≠ Toolchain.linker := by decide
  have hassembler : (w.withTool Toolchain.linker ld).tools.lookup Toolchain.assembler =
      (w.withoutTool Toolchain.linker).tools.lookup Toolchain.assembler := by
    rw [w.lookup_withTool_of_ne ld hne, w.lookup_withoutTool_of_ne hne]
  cases r with
  | error x => rfl
  | ok done =>
    obtain hlink | hasm | ⟨x, hx⟩ := h
    · refine finish_congr hskip hassembler ?_ done
      unfold missing
      rw [hassembler, hlink]
      rfl
    · simp [proceed, finish, hasm]
    · cases hx

/-- Where a linker is needed, what is missing without one is not missing with one. -/
theorem proceed_needs_linker {done : Artifacts} (hnew : done.missing = []) (ld : Tool)
    (hlink : o.target.needsLink = true) (hasm : o.asmOnly = false) :
    proceed (ε := ε) o (w.withTool Toolchain.linker ld).tools (.ok done) ≠
      proceed o (w.withoutTool Toolchain.linker).tools (.ok done) := by
  have hends := finish_finishes (ε := ε) o (w.withTool Toolchain.linker ld).tools done
  intro heq
  dsimp only [proceed] at heq
  rw [heq, finish_of_linker_missing hlink hasm w.lookup_withoutTool] at hends
  exact hends.linker_notMem_missing hnew (by simp) rfl
    ((linker_mem_missing_iff _ _).2 ⟨hlink, w.lookup_withoutTool⟩)

theorem proceed_blind_iff (hskip : o.skipLink = true) (ld : Tool)
    (hnew : ∀ done, r = .ok done → done.missing = []) :
    proceed o (w.withTool Toolchain.linker ld).tools r =
        proceed o (w.withoutTool Toolchain.linker).tools r ↔
      o.target.needsLink = false ∨ o.asmOnly = true ∨ ∃ x, r = .error x := by
  refine ⟨fun heq => ?_, proceed_blind hskip ld⟩
  cases r with
  | error x => exact .inr (.inr ⟨x, rfl⟩)
  | ok done =>
    cases hlink : o.target.needsLink with
    | false => exact .inl rfl
    | true =>
      cases hasm : o.asmOnly with
      | true => exact .inr (.inl rfl)
      | false => exact absurd heq (proceed_needs_linker (hnew done rfl) ld hlink hasm)

theorem proceed_lacks_linker (hnew : ∀ done, r = .ok done → done.objFile = none)
    (h : ¬ (o.target.needsLink = false ∨ o.asmOnly = true ∨ ∃ x, r = .error x)) :
    ∃ a, proceed o (w.withoutTool Toolchain.linker).tools r = (.ok a, []) ∧ a.objFile = none ∧
      Text.ofString "ld (linker)" ∈ a.missing := by
  simp only [not_or, Bool.not_eq_false, Bool.not_eq_true] at h
  obtain ⟨hlink, hasm, hok⟩ := h
  cases r with
  | error x => exact absurd ⟨x, rfl⟩ hok
  | ok done =>
    exact ⟨_, finish_of_linker_missing hlink hasm w.lookup_withoutTool done, hnew done rfl,
      (linker_mem_missing_iff _ _).2 ⟨hlink, w.lookup_withoutTool⟩⟩

end Linker

/-- What is seen of a build: how it ends, and all commands that were run. -/
def seen (logger : Logger (StateM Workspace)) (o : BuildOptions) (p : Program ε) (w : Workspace) :
    Except (BuildError ε) Artifacts × List (List Text) :=
  (((run logger o p).run w).1, ((run logger o p).run w).2.commands)

/-- The tools decide only what comes behind the assembly file. -/
theorem seen_eq_proceed (hq : Logger.Quiet logger) (o : BuildOptions) (p : Program ε)
    (w : Workspace) (tools : List (Text × Tool)) :
    seen logger o p { w with tools := tools } =
      ((proceed o tools (prepare o p w.tree w.cwd).1).1,
        w.commands ++ (proceed o tools (prepare o p w.tree w.cwd).1).2) := by
  obtain ⟨hanswer, hran⟩ := run_course hq o p { w with tools := tools }
  exact Prod.ext hanswer hran.commands

/-- With and without a linker, a build that is not to link ends in the same way and runs the same
commands if and only if there is nothing to link or no tool is asked for.  Otherwise, without a
linker, it stops with the assembly file: nothing is assembled. -/
theorem skipLink_blind_iff (hq : Logger.Quiet logger) {o : BuildOptions}
    (hskip : o.skipLink = true) (p : Program ε) (w : Workspace) (ld : Tool) :
    (seen logger o p (w.withTool Toolchain.linker ld) =
        seen logger o p (w.withoutTool Toolchain.linker) ↔
      o.target.needsLink = false ∨ EndsEarly logger o p w) ∧
    (¬ (o.target.needsLink = false ∨ EndsEarly logger o p w) →
      ∃ a, seen logger o p (w.withoutTool Toolchain.linker) = (.ok a, w.commands) ∧
        a.objFile = none ∧ Text.ofString "ld (linker)" ∈ a.missing) := by
  have hhas := seen_eq_proceed hq o p w (w.withTool Toolchain.linker ld).tools
  have hlacks := seen_eq_proceed hq o p w (w.withoutTool Toolchain.linker).tools
  have hnew : ∀ done, (prepare o p w.tree w.cwd).1 = .ok done →
      done.objFile = none ∧ done.missing = [] := by
    obtain ⟨x, t', hprep, -⟩ | ⟨e, t, t', -, -, -, -, hprep⟩ := prepare_cases o p w.tree w.cwd <;>
      intro done hdone <;> rw [hprep] at hdone <;> cases hdone
    exact ⟨rfl, rfl⟩
  change seen logger o p (w.withTool Toolchain.linker ld) = _ at hhas
  change seen logger o p (w.withoutTool Toolchain.linker) = _ at hlacks
  rw [endsEarly_iff hq, hhas, hlacks]
  constructor
  · rw [← proceed_blind_iff (w := w) hskip ld fun done h => (hnew done h).2, Prod.ext_iff,
      Prod.ext_iff, List.append_cancel_left_eq]
  · intro h
    obtain ⟨a, ha, hobj, hmissing⟩ :=
      proceed_lacks_linker (w := w) (fun done h => (hnew done h).1) h
    rw [ha, List.append_nil]
    exact ⟨a, rfl, hobj, hmissing⟩

/-- An assembler that works is not run for want of a linker. -/
theorem skipLink_blind_iff_assembler_only :
    let o : BuildOptions := { BuildOptions.default with skipLink := true }
    let p : Program Empty := fun e => (.ok (), e)
    let w := Workspace.new [] [] [(Toolchain.assembler, ⟨0, [], []⟩)]
    Logger.Quiet Workspace.record ∧ o.skipLink = true ∧
      seen Workspace.record o p (w.withTool Toolchain.linker ⟨0, [], []⟩) ≠
        seen Workspace.record o p (w.withoutTool Toolchain.linker) ∧
      ∃ a, seen Workspace.record o p (w.withoutTool Toolchain.linker) = (.ok a, []) ∧
        a.objFile = none ∧ Text.ofString "ld (linker)" ∈ a.missing := by
  intro o p w
  have hgoes : ¬ (o.target.needsLink = false ∨ EndsEarly Workspace.record o p w) := by
    have hok : ((run Workspace.record { o with asmOnly := true } p).run w).1.toBool = true := by
      decide +kernel
    rintro (hflat | hasm | ⟨x, hx⟩)
    · exact absurd hflat (by decide)
    · exact absurd hasm (by decide)
    · rw [hx] at hok
      cases hok
  obtain ⟨hiff, hlacks⟩ := skipLink_blind_iff Workspace.record_quiet (o := o) rfl p w ⟨0, [], []⟩
  exact ⟨Workspace.record_quiet, rfl, fun h => hgoes (hiff.1 h), hlacks hgoes⟩

end Build

end Assembly
