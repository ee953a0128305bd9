import Assembly.Build.Artifacts
import Assembly.CommandLine.Run
import Assembly.Proofs.Build.Files

/-!
# The course of a build

A build first makes its assembly file, and then the tools make the rest.  The first part,
`prepare`, is a function of the files and never looks at the tools; the second, `finish`, is a
function of the tools and never looks at the files.  What is logged on the way decides nothing, as
long as the logger only writes.  So a build comes down to these two functions, `run_course`.
-/

namespace Assembly

/-! ## Running commands -/

namespace Workspace

/-- From `w` to `w'` the commands were run, and nothing else has happened but output. -/
structure Ran (w : Workspace) (cmds : List (List Text)) (w' : Workspace) : Prop where
  tree : w'.tree = w.treeAfter cmds w.tree
  cwd : w'.cwd = w.cwd
  tools : w'.tools = w.tools
  effect : w'.effect = w.effect
  commands : w'.commands = w.commands ++ cmds

/-- The action answers `a` and runs the commands. -/
def Performs {α : Type} (w : Workspace) (m : StateM Workspace α) (a : α)
    (cmds : List (List Text)) : Prop :=
  (m.run w).1 = a ∧ w.Ran cmds (m.run w).2

variable {α β : Type} {w w' w'' : Workspace} {cs ds : List (List Text)}

theorem Ran.refl (w : Workspace) : w.Ran [] w :=
  ⟨rfl, rfl, rfl, rfl, (List.append_nil _).symm⟩

theorem Ran.trans (h : w.Ran cs w') (h' : w'.Ran ds w'') : w.Ran (cs ++ ds) w'' where
  tree := by
    rw [h'.tree, h.tree, treeAfter, treeAfter, treeAfter, h.effect, List.foldl_append]
  cwd := h'.cwd.trans h.cwd
  tools := h'.tools.trans h.tools
  effect := h'.effect.trans h.effect
  commands := by rw [h'.commands, h.commands, List.append_assoc]

theorem Ran.withTree (h : w.Ran [] w') (t : FileTree) :
    { w with tree := t }.Ran [] { w' with tree := t } :=
  ⟨rfl, h.cwd, h.tools, h.effect, h.commands⟩

theorem performs_pure (w : Workspace) (a : α) : w.Performs (pure a) a [] := ⟨rfl, .refl w⟩

/-- What follows an action sees the same tools. -/
theorem Performs.bind {m : StateM Workspace α} {f : α → StateM Workspace β} {a : α} {b : β}
    (hm : w.Performs m a cs)
    (hf : ∀ v : Workspace, v.tools = w.tools → v.Performs (f a) b ds) :
    w.Performs (m >>= f) b (cs ++ ds) := by
  obtain ⟨rfl, hran⟩ := hm
  obtain ⟨hb, hran'⟩ := hf _ hran.tools
  exact ⟨hb, hran.trans hran'⟩

theorem Performs.idle_bind {m : StateM Workspace α} {f : α → StateM Workspace β} {a : α} {b : β}
    (hm : w.Performs m a [])
    (hf : ∀ v : Workspace, v.tools = w.tools → v.Performs (f a) b ds) :
    w.Performs (m >>= f) b ds := hm.bind hf

theorem Performs.bind_idle {m : StateM Workspace α} {f : α → StateM Workspace β} {a : α} {b : β}
    (hm : w.Performs m a cs)
    (hf : ∀ v : Workspace, v.tools = w.tools → v.Performs (f a) b []) :
    w.Performs (m >>= f) b cs := by
  have h := hm.bind hf
  rwa [List.append_nil] at h

end Workspace

/-- A logger that only writes, to the log or to the output. -/
def Logger.Quiet (logger : Logger (StateM Workspace)) : Prop :=
  ∀ (entry : Log.Entry) (w : Workspace), w.Ran [] ((logger entry).run w).2

theorem Workspace.record_quiet : Logger.Quiet Workspace.record :=
  fun _ _ => ⟨rfl, rfl, rfl, rfl, (List.append_nil _).symm⟩

/-- What the command line logs goes to the error output. -/
theorem CommandLine.logger_quiet (debug : Bool) : Logger.Quiet (CommandLine.logger debug) := by
  intro entry w
  by_cases hlevel : entry.level.reaches (if debug then .debug else .warn) = true
  · rw [CommandLine.logger, if_pos hlevel]
    exact ⟨rfl, rfl, rfl, rfl, (List.append_nil _).symm⟩
  · rw [CommandLine.logger, if_neg hlevel]
    exact .refl w

namespace Logger.Quiet

variable {logger : Logger (StateM Workspace)}

theorem performs (h : Logger.Quiet logger) (entry : Log.Entry) (w : Workspace) :
    w.Performs (logger entry) () [] := ⟨rfl, h entry w⟩

theorem performs_forM (h : Logger.Quiet logger) (entries : List Log.Entry) (w : Workspace) :
    w.Performs (entries.forM logger) () [] := by
  induction entries generalizing w with
  | nil => exact w.performs_pure ()
  | cons entry entries ih => exact (h.performs entry w).idle_bind fun v _ => ih v

end Logger.Quiet

namespace Build

open Workspace

variable {ε : Type}

/-! ## The assembly file -/

/-- What comes of the program, if it runs to its end. -/
def emitted (o : BuildOptions) (p : Program ε) : Except (BuildError ε) Engine :=
  match p (.new o.target o.strict) with
  | (.error err, _) => .error (.emission err)
  | (.ok _, e) =>
    match e.current with
    | some f => .error (.unended f.name)
    | none => .ok e

/-- The part of a build that makes the assembly file: what it makes, and the files after it. -/
def prepare (o : BuildOptions) (p : Program ε) (t : FileTree) (cwd : List Text) :
    Except (BuildError ε) Artifacts × FileTree :=
  match filesRun (Host.makeDirsFrom (Path.ancestors o.directory)) t cwd with
  | (.error e, t) => (.error (.directory o.directory e), t)
  | (.ok _, t) =>
    match emitted o p with
    | .error e => (.error e, t)
    | .ok e =>
      match t.putFile cwd o.toolchain.asmFile e.program with
      | .error f => (.error (.asmFile ⟨"open", o.toolchain.asmFile, f⟩), t)
      | .ok t => (.ok ⟨e.program, o.toolchain.asmFile, none, none, e.dump, []⟩, t)

/-! ## The tools -/

/-- A stage with the tools that are there: how it ends, and the command if it is run. -/
def stage (tools : List (Text × Tool)) (s : Stage) (tool : Text) (args : List Text) :
    Except ToolError Unit × List (List Text) :=
  match tools.lookup tool with
  | none => (.error (.missing s tool), [])
  | some t =>
    (if t.exit = 0 then .ok () else .error (.failed s ⟨t.exit, t.stderr⟩), [tool :: args])

/-- The tools that a target needs and that are not there. -/
def missing (target : Target) (tools : List (Text × Tool)) : List Text :=
  (if !(tools.lookup Toolchain.assembler).isSome then [Toolchain.assembler] else []) ++
    (if target.needsLink && !(tools.lookup Toolchain.linker).isSome then
      [Text.ofString "ld (linker)"] else [])

/-- What the linker makes of the object file. -/
def linked (o : BuildOptions) (tools : List (Text × Tool)) (done : Artifacts) :
    Except (BuildError ε) Artifacts × List (List Text) :=
  match stage tools .link Toolchain.linker o.toolchain.linkArgs with
  | (.error e, cmds) => (.error (.linking done e), cmds)
  | (.ok _, cmds) => (.ok { done with exeFile := some o.toolchain.exeFile }, cmds)

/-- What the tools make of the assembly file, none of them missing. -/
def assembled (o : BuildOptions) (tools : List (Text × Tool)) (done : Artifacts) :
    Except (BuildError ε) Artifacts × List (List Text) :=
  match stage tools .assemble Toolchain.assembler o.toolchain.assembleArgs with
  | (.error e, cmds) => (.error (.assembly done e), cmds)
  | (.ok _, cmds) =>
    let done := { done with objFile := some o.toolchain.objFile }
    if !o.target.needsLink then (.ok { done with exeFile := some o.toolchain.objFile }, cmds)
    else if o.skipLink then (.ok done, cmds)
    else ((linked o tools done).1, cmds ++ (linked (ε := ε) o tools done).2)

/-- The part of a build behind the assembly file: what it makes, and the commands it runs. -/
def finish (o : BuildOptions) (tools : List (Text × Tool)) (done : Artifacts) :
    Except (BuildError ε) Artifacts × List (List Text) :=
  if o.asmOnly then (.ok done, [])
  else if missing o.target tools = [] then assembled o tools done
  else (.ok { done with missing := missing o.target tools }, [])

variable {logger : Logger (StateM Workspace)}

/-- A tool that is there does its work, and leaves its command behind and what it printed. -/
theorem run_runTool (tool : Text) (args : List Text) (w : Workspace) :
    (Host.runTool tool args : StateM Workspace (Option ToolRun)).run w =
      match w.tools.lookup tool with
      | none => (none, w)
      | some t => (some ⟨t.exit, t.stderr⟩,
          { w with tree := w.effect (tool :: args) w.tree,
                   commands := w.commands ++ [tool :: args], stdout := w.stdout ++ t.stdout }) := by
  have hget : (get : StateM Workspace Workspace).run w = (w, w) := rfl
  show (runTool tool args).run w = _
  rw [runTool, run_bind, hget]
  cases w.tools.lookup tool <;> rfl

theorem performs_runStage (hq : Logger.Quiet logger) (s : Stage) (tool : Text) (args : List Text)
    (w : Workspace) : w.Performs (Toolchain.runStage logger s tool args)
      (stage w.tools s tool args).1 (stage w.tools s tool args).2 := by
  refine (hq.performs _ w).idle_bind fun v htools => ?_
  rw [← htools]
  unfold Performs stage
  rw [run_bind, run_runTool]
  cases v.tools.lookup tool with
  | none => exact ⟨rfl, .refl v⟩
  | some t => exact ⟨rfl, rfl, rfl, rfl, rfl, rfl⟩

theorem performs_missing (target : Target) (w : Workspace) :
    w.Performs (Toolchain.missing target) (missing target w.tools) [] := ⟨rfl, .refl w⟩

theorem performs_link (hq : Logger.Quiet logger) {o : BuildOptions}
    (hlink : o.target.needsLink = true) (done : Artifacts) (w : Workspace) :
    w.Performs (link (ε := ε) logger o.toolchain done) (linked o w.tools done).1
      (linked (ε := ε) o w.tools done).2 := by
  have htool : Toolchain.link logger o.toolchain =
      Toolchain.runStage logger .link Toolchain.linker o.toolchain.linkArgs := if_pos hlink
  refine (hq.performs _ w).idle_bind fun v htools => ?_
  rw [htool, ← htools]
  have hstage := performs_runStage hq .link Toolchain.linker o.toolchain.linkArgs v
  unfold linked
  generalize stage v.tools .link Toolchain.linker o.toolchain.linkArgs = ending at hstage ⊢
  obtain ⟨answer, cmds⟩ := ending
  cases answer with
  | error e => exact hstage.bind_idle fun u _ => u.performs_pure _
  | ok _ =>
    exact hstage.bind_idle fun u _ => (hq.performs _ u).idle_bind fun x _ => x.performs_pure _

theorem performs_assemble (hq : Logger.Quiet logger) (o : BuildOptions) (done : Artifacts)
    (w : Workspace) :
    w.Performs (assemble (ε := ε) logger o o.toolchain done) (assembled o w.tools done).1
      (assembled (ε := ε) o w.tools done).2 := by
  refine (hq.performs _ w).idle_bind fun v htools => ?_
  rw [← htools]
  have hstage := performs_runStage hq .assemble Toolchain.assembler o.toolchain.assembleArgs v
  unfold assembled
  generalize stage v.tools .assemble Toolchain.assembler o.toolchain.assembleArgs = ending
    at hstage ⊢
  obtain ⟨answer, cmds⟩ := ending
  cases answer with
  | error e => exact hstage.bind_idle fun u _ => u.performs_pure _
  | ok _ =>
    cases hlink : o.target.needsLink with
    | false => exact hstage.bind_idle fun u _ => u.performs_pure _
    | true =>
      cases hskip : o.skipLink with
      | true => exact hstage.bind_idle fun u _ => u.performs_pure _
      | false =>
        refine hstage.bind fun u hu => ?_
        rw [← hu]
        exact performs_link hq hlink _ u

theorem performs_finish (hq : Logger.Quiet logger) (o : BuildOptions) (done : Artifacts)
    (entry : Log.Entry) {w : Workspace} {tools : List (Text × Tool)} (hw : w.tools = tools) :
    w.Performs
      (logger entry >>= fun _ =>
        if o.asmOnly then pure (.ok done) else useTools logger o o.toolchain done)
      (finish (ε := ε) o tools done).1 (finish (ε := ε) o tools done).2 := by
  refine (hq.performs entry w).idle_bind fun v hv => ?_
  rw [← hw, ← hv]
  unfold finish
  cases o.asmOnly with
  | true => exact v.performs_pure _
  | false =>
    refine (performs_missing o.target v).idle_bind fun u hu => ?_
    rw [← hu]
    cases missing o.target u.tools with
    | nil => exact performs_assemble hq o done u
    | cons tool rest => exact (hq.performs _ u).idle_bind fun x _ => x.performs_pure _

theorem performs_emit (hq : Logger.Quiet logger) (o : BuildOptions) (p : Program ε)
    (w : Workspace) : w.Performs (emit logger o p) (emitted o p) [] := by
  unfold emitted
  refine (hq.performs _ w).idle_bind fun v _ => ?_
  obtain ⟨outcome, e⟩ := p (.new o.target o.strict)
  refine (hq.performs_forM e.log v).idle_bind fun u _ => ?_
  cases outcome with
  | error err => exact u.performs_pure _
  | ok _ =>
    dsimp only
    cases e.current <;> exact u.performs_pure _

/-- A build goes on with the tools if there is an assembly file. -/
def proceed (o : BuildOptions) (tools : List (Text × Tool)) :
    Except (BuildError ε) Artifacts → Except (BuildError ε) Artifacts × List (List Text)
  | .error e => (.error e, [])
  | .ok done => finish o tools done

/-- How a build ends and the commands that it runs, from the files and the tools. -/
def course (o : BuildOptions) (p : Program ε) (w : Workspace) :
    Except (BuildError ε) Artifacts × List (List Text) :=
  proceed o w.tools (prepare o p w.tree w.cwd).1

theorem run_course (hq : Logger.Quiet logger) (o : BuildOptions) (p : Program ε) (w : Workspace) :
    ((run logger o p).run w).1 = (course o p w).1 ∧
      { w with tree := (prepare o p w.tree w.cwd).2 }.Ran (course o p w).2
        ((run logger o p).run w).2 := by
  unfold course prepare run
  rw [run_bind, OnFiles.makeDirsFrom _ w]
  obtain ⟨made, t⟩ := filesRun (Host.makeDirsFrom (Path.ancestors o.directory)) w.tree w.cwd
  cases made with
  | error e => exact ⟨rfl, .refl _⟩
  | ok _ =>
    dsimp only
    rw [run_bind]
    obtain ⟨hanswer, hran⟩ := performs_emit hq o p { w with tree := t }
    rw [hanswer]
    generalize ((emit logger o p).run { w with tree := t }).2 = v at hran ⊢
    cases emitted o p with
    | error e => exact ⟨rfl, hran⟩
    | ok e =>
      have hput : v.tree.putFile v.cwd o.toolchain.asmFile e.program =
          t.putFile w.cwd o.toolchain.asmFile e.program := by rw [hran.tree, hran.cwd]; rfl
      have hwrite := run_write o.toolchain.asmFile e.program v
      rw [hput] at hwrite
      dsimp only [Toolchain.writeAssembly]
      rw [run_bind, hwrite]
      cases t.putFile w.cwd o.toolchain.asmFile e.program with
      | error f => exact ⟨rfl, hran⟩
      | ok t' =>
        have hrest := performs_finish (ε := ε) (w := { v with tree := t' }) hq o
          ⟨e.program, o.toolchain.asmFile, none, none, e.dump, []⟩
          ⟨.debug, "assembly written", [("path", o.toolchain.asmFile)]⟩ hran.tools
        exact ⟨hrest.1, (hran.withTree t').trans hrest.2⟩

end Build

end Assembly
