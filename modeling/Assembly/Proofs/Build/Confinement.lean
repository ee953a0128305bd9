import Assembly.Proofs.Build.Stages

/-!
# Where the files of a build lie

What a build changes lies directly in its directory, and its stages do not write over each other's
files: `artifacts_confined`.
-/

namespace Assembly

/-- The same files, but for those directly in a directory. -/
def FileTree.SameFilesBeside (t t' : FileTree) (d : List Text) : Prop :=
  ∀ q, (∀ n, q ≠ d ++ [n]) → ∀ c, t'.get? q = some (.file c) ↔ t.get? q = some (.file c)

namespace Build

variable {ε : Type}

theorem Finishes.paths {o : BuildOptions} {tools : List (Text × Tool)} {done a : Artifacts}
    {r : Except (BuildError ε) Artifacts} {cmds : List (List Text)}
    (h : Finishes o tools done r cmds) (hobj : done.objFile = none) (hexe : done.exeFile = none)
    (ha : made r = some a) :
    (∀ f, a.objFile = some f → f = o.toolchain.objFile) ∧
      ∀ f, a.exeFile = some f → f = o.toolchain.exeFile := by
  cases h with
  | flat hasm hall hok hlink =>
    have hsame := o.objFile_eq_exeFile_iff.2 (by simpa [Target.needsLink] using hlink)
    cases ha
    simp [hsame, eq_comm]
  | _ =>
    cases ha
    simp [hobj, hexe, eq_comm]

variable {logger : Logger (StateM Workspace)}

/-- A build changes no file outside of its directory, as long as the tools write what they are told
to. -/
theorem run_sameFilesBeside (hq : Logger.Quiet logger) (o : BuildOptions) (p : Program ε)
    (w : Workspace) {r : Except (BuildError ε) Artifacts} {w' : Workspace}
    (hrun : (run logger o p).run w = (r, w')) (hw : w.Obedient) :
    w.tree.SameFiles w'.tree ∨
      ∃ d, w'.tree.place w'.cwd o.directory = .ok d ∧ w.tree.SameFilesBeside w'.tree d := by
  obtain ⟨x, -, -, -, hfiles⟩ | ⟨e, t, t', cmds, -, -, hfiles, hput, htree, hcwd, -, hends⟩ :=
    run_cases hq o p w hrun
  · exact .inl hfiles
  · obtain ⟨q, hplace, hnode, rfl⟩ := FileTree.putFile_ok hput
    have hchild := o.toolchain_children (f := o.toolchain.asmFile) List.mem_cons_self
    obtain ⟨d, n, hd, rfl⟩ := hchild.place o.directory_ne_nil hplace
    have hd' := t.place_insert (.file e.program) hd hnode
    rw [htree, hcwd]
    refine .inr ⟨d, hw.place hd', fun q' hq' c => ?_⟩
    rw [hw.get? o.directory_ne_nil hd' fun cmd hcmd => ?_, t.get?_insert_of_ne _ (hq' n)]
    · exact hfiles q' c
    · obtain ⟨ext, hout, hname, -⟩ := hends.writes hcmd
      exact ⟨_, hout, hname, hq' _⟩

/-- Whatever the output name and the build directory are, the files of a build are direct children
of the clean path of its directory, by their names and by where the names lead.  The assembly file
is none of the others, and only a flat binary is its own object file.  A build uses no other
paths, and changes no other files if the tools write what they are told to. -/
theorem artifacts_confined (hq : Logger.Quiet logger) (o : BuildOptions) (p : Program ε)
    (w : Workspace) {r : Except (BuildError ε) Artifacts} {w' : Workspace}
    (hrun : (run logger o p).run w = (r, w')) :
    let dir := Path.clean
      ((if o.buildDir.isEmpty then Text.ofString "build" else o.buildDir) ++ 47 :: o.target.name)
    let tc := o.toolchain
    (∀ f ∈ [tc.asmFile, tc.objFile, tc.exeFile], Path.IsChild dir f ∧
      ∀ (t : FileTree) (cwd q : List Text), t.place cwd f = .ok q →
        ∃ d n, t.place cwd dir = .ok d ∧ q = d ++ [n]) ∧
    tc.asmFile ≠ tc.objFile ∧ tc.asmFile ≠ tc.exeFile ∧
    (tc.objFile = tc.exeFile ↔ o.target.objectFormat = .bin) ∧
    (∀ a, made r = some a → a.asmFile = tc.asmFile ∧ (∀ f, a.objFile = some f → f = tc.objFile) ∧
      ∀ f, a.exeFile = some f → f = tc.exeFile) ∧
    (w.Obedient → w.tree.SameFiles w'.tree ∨
      ∃ d, w'.tree.place w'.cwd dir = .ok d ∧ w.tree.SameFilesBeside w'.tree d) := by
  intro dir tc
  have hdir : o.directory = dir := o.directory_eq
  rw [← hdir]
  refine ⟨fun f hf => ?_, o.asmFile_ne_objFile, o.asmFile_ne_exeFile, o.objFile_eq_exeFile_iff,
    fun a ha => ?_, run_sameFilesBeside hq o p w hrun⟩
  · have hchild := o.toolchain_children hf
    exact ⟨hchild, fun t cwd q hq => hchild.place o.directory_ne_nil hq⟩
  · obtain ⟨x, rfl, hx, -⟩ | ⟨e, t, t', cmds, -, -, -, -, -, -, -, hends⟩ := run_cases hq o p w hrun
    · simp [made, hx] at ha
    · obtain ⟨b, hb, -, hfile⟩ := hends.made_eq
      obtain rfl : b = a := Option.some.inj (hb.symm.trans ha)
      exact ⟨hfile, hends.paths rfl rfl ha⟩

/-- An output name that would lead out of the directory, and a directory that leads up: the build
goes through to the end, and stays where it is put. -/
theorem artifacts_confined_upwards :
    let o : BuildOptions :=
      { BuildOptions.default with outputName := "../../etc/passwd", buildDir := "a/../../b" }
    let p : Program Empty := fun e => (.ok (), e)
    let w := { Workspace.new [([Text.ofString "home"], .directory)] [Text.ofString "home"]
        [("nasm", ⟨0, [], []⟩), ("ld", ⟨0, [], []⟩)] with
      effect := Workspace.writing [Text.ofString "home"] "made" }
    let logger : Logger (StateM Workspace) := CommandLine.logger false
    let out := (run logger o p).run w
    Logger.Quiet logger ∧ w.Obedient ∧
      Path.IsChild (Text.ofString "../b/bits_64") o.toolchain.asmFile ∧
      (∃ a, made out.1 = some a ∧ a.asmFile = o.toolchain.asmFile ∧
        a.exeFile = some o.toolchain.exeFile) ∧
      ∃ d, out.2.tree.place out.2.cwd (Text.ofString "../b/bits_64") = .ok d ∧
        w.tree.SameFilesBeside out.2.tree d := by
  intro o p w logger out
  have hq : Logger.Quiet logger := CommandLine.logger_quiet false
  have hw : w.Obedient :=
    Workspace.obedient_writing (.new w.tree [Text.ofString "home"] w.tools) "made"
  obtain ⟨hfiles, -, -, -, hmade, hbeside⟩ := artifacts_confined hq o p w (Prod.eta out).symm
  have hdir : Path.clean (Text.ofString "a/../../b" ++ 47 :: Target.bits64.name) =
      Text.ofString "../b/bits_64" := by decide
  have hends : (made out.1).map (·.exeFile.isSome) = some true := by decide +kernel
  obtain ⟨a, ha, hexe⟩ := Option.map_eq_some_iff.mp hends
  obtain ⟨f, hf⟩ := Option.isSome_iff_exists.mp hexe
  obtain ⟨hasm, -, hpath⟩ := hmade a ha
  rw [← hdir]
  refine ⟨hq, hw, (hfiles _ List.mem_cons_self).1, ⟨a, ha, hasm, by rw [hf, hpath f hf]⟩, ?_⟩
  -- The build has written, so the files are not the same.
  refine (hbeside hw).resolve_left fun hsame => ?_
  have hnew : out.2.tree.get? [Text.ofString "b", Text.ofString "bits_64",
      Text.ofString "______etc_passwd.o"] = some (.file "made") := by decide +kernel
  exact absurd ((hsame _ _).mp hnew) (by decide)

end Build

end Assembly
