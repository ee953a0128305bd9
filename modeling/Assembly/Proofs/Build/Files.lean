import Assembly.Build.Workspace
import Assembly.Proofs.Build.Path

/-!
# Files of a workspace

The place of a path is found by a walk through directories.  A name behind the path of a
directory leads directly below the place of the directory: `place_child`.

Tools change files, too.  Those that change only what they are told to write, `Obedient`, leave
alone what lies beside it.

What a build does with files looks at the tree and at the working directory only, and changes the
tree only: `OnFiles`.  Such an action is a function of the tree, `filesRun`.
-/

namespace Assembly

section Lookup

variable {α β : Type} [BEq α] [LawfulBEq α] (l : List (α × β))

theorem lookup_filter_ne {k q : α} (h : q ≠ k) : (l.filter (·.1 != k)).lookup q = l.lookup q := by
  induction l with
  | nil => rfl
  | cons entry l ih =>
    obtain ⟨a, b⟩ := entry
    by_cases hat : a = k
    · subst hat
      have hq : (q == a) = false := by simpa using h
      rw [List.filter_cons_of_neg (by simp), ih, List.lookup_cons, hq]
    · rw [List.filter_cons_of_pos (by simpa using hat), List.lookup_cons, List.lookup_cons, ih]

theorem lookup_filter_self (k : α) : (l.filter (·.1 != k)).lookup k = none := by
  rw [List.lookup_eq_none_iff]
  intro entry hentry
  have hne : entry.1 ≠ k := by simpa using (List.mem_filter.1 hentry).2
  simpa using hne.symm

end Lookup

/-! ## Places -/

namespace FileTree

variable (t : FileTree)

theorem get?_insert_of_ne {place q : List Text} (n : Node) (h : q ≠ place) :
    (t.insert place n).get? q = t.get? q := by
  unfold get? insert
  split
  · rfl
  · rw [List.lookup_cons, show (q == place) = false from by simpa using h]
    exact lookup_filter_ne t h

/-- The last step to a place that is named goes down from a directory. -/
theorem walk_concat {n : Text} (hn : Path.isName n) {place q es : List Text}
    (h : t.walk place (es ++ [n]) = .ok q) :
    ∃ d, t.walk place es = .ok d ∧ t.get? d = some .directory ∧ q = d ++ [n] := by
  induction es generalizing place with
  | nil =>
    rw [List.nil_append, walk] at h
    have hplain : ¬ (n.isEmpty = true ∨ n = Text.ofString ".") := by
      simp only [Path.isName, Bool.and_eq_true] at hn
      simpa using ⟨by simpa using hn.1.1.1, by simpa using hn.1.2⟩
    cases hd : t.get? place with
    | none => simp [hd] at h
    | some node =>
      cases node with
      | file c => simp [hd] at h
      | directory =>
        rw [hd] at h
        dsimp only at h
        rw [if_neg hplain, if_neg (Path.ne_up_of_isName hn)] at h
        split at h
        · cases h
        · cases h
          exact ⟨place, rfl, hd, rfl⟩
  | cons e es ih =>
    rw [List.cons_append, walk] at h
    rw [walk]
    split at h
    · cases h
    · cases h
    · split at h
      case isTrue he => rw [if_pos he]; exact ih h
      case isFalse he =>
        rw [if_neg he]
        split at h
        case isTrue hup => rw [if_pos hup]; exact ih h
        case isFalse hup =>
          rw [if_neg hup]
          split at h
          · cases h
          case isFalse hlong => rw [if_neg hlong]; exact ih h

/-- A name behind the path of a directory leads directly below the directory. -/
theorem place_child {cwd q : List Text} {dir n : Text} (hdir : dir ≠ []) (hn : Path.isName n)
    (h : t.place cwd (dir ++ 47 :: n) = .ok q) :
    ∃ d, t.place cwd dir = .ok d ∧ t.get? d = some .directory ∧ q = d ++ [n] := by
  unfold place at h ⊢
  have hhead : (dir ++ 47 :: n).head? = dir.head? := by
    cases dir with
    | nil => exact absurd rfl hdir
    | cons c r => rfl
  have hslash : 47 ∉ n := Path.slash_notMem_of_isElement (Path.isElement_of_isName hn)
  rw [hhead, Text.split_append_separator, Text.split_of_notMem hslash] at h
  split at h
  · cases h
  case isFalse hzero =>
    split at h
    · cases h
    · split at h
      · cases h
      case isFalse hlong =>
        have hzero' : ¬ dir.contains 0 = true := by
          simp only [List.contains_eq_mem, decide_eq_true_eq, List.mem_append, not_or] at hzero ⊢
          exact hzero.1
        have hlong' : ¬ 4096 ≤ dir.length := by
          simp only [List.length_append, List.length_cons] at hlong
          omega
        rw [if_neg hzero', if_neg (by simpa using hdir), if_neg hlong']
        exact t.walk_concat hn h

/-- A walk leads to the same place where there are the same directories, and others beside them: the
places that are passed are directories. -/
theorem walk_mono {t t' : FileTree}
    (hdirs : ∀ q, t.get? q = some .directory → t'.get? q = some .directory)
    {place r es : List Text} (h : t.walk place es = .ok r) : t'.walk place es = .ok r := by
  induction es generalizing place with
  | nil =>
    rw [walk] at h ⊢
    exact h
  | cons e es ih =>
    rw [walk] at h ⊢
    split at h
    · cases h
    · cases h
    case h_3 hd =>
      rw [hdirs place hd]
      dsimp only
      split at h
      case isTrue he => rw [if_pos he]; exact ih h
      case isFalse he =>
        rw [if_neg he]
        split at h
        case isTrue hup => rw [if_pos hup]; exact ih h
        case isFalse hup =>
          rw [if_neg hup]
          split at h
          · cases h
          case isFalse hlong => rw [if_neg hlong]; exact ih h

theorem place_mono {t t' : FileTree}
    (hdirs : ∀ q, t.get? q = some .directory → t'.get? q = some .directory)
    {cwd r : List Text} {p : Text} (h : t.place cwd p = .ok r) : t'.place cwd p = .ok r := by
  unfold place at h ⊢
  split at h
  · cases h
  case isFalse hzero =>
    rw [if_neg hzero]
    split at h
    · cases h
    case isFalse hempty =>
      rw [if_neg hempty]
      split at h
      · cases h
      case isFalse hlong =>
        rw [if_neg hlong]
        exact walk_mono hdirs h

theorem place_insert {cwd q r : List Text} {p : Text} (n : Node) (h : t.place cwd p = .ok r)
    (hq : t.get? q ≠ some .directory) : (t.insert q n).place cwd p = .ok r := by
  refine place_mono (fun d hd => ?_) h
  have hne : d ≠ q := fun he => hq (he.symm ▸ hd)
  rw [t.get?_insert_of_ne n hne, hd]

/-- The same files with the same contents; there may be other directories. -/
def SameFiles (t t' : FileTree) : Prop :=
  ∀ q c, t'.get? q = some (.file c) ↔ t.get? q = some (.file c)

theorem SameFiles.refl (t : FileTree) : t.SameFiles t := fun _ _ => Iff.rfl

theorem SameFiles.trans {t t' t'' : FileTree} (h : t.SameFiles t') (h' : t'.SameFiles t'') :
    t.SameFiles t'' := fun q c => (h' q c).trans (h q c)

theorem sameFiles_insert_directory {place : List Text} (h : t.get? place = none) :
    t.SameFiles (t.insert place .directory) := by
  intro q c
  by_cases hq : q = place
  · subst hq
    have hne : q ≠ [] := fun he => by simp [he, get?] at h
    rw [t.get?_insert _ hne, h]
    simp
  · rw [t.get?_insert_of_ne _ hq]

/-! ## Changes -/

/-- The tree with a file at a path. -/
def putFile (cwd : List Text) (p text : Text) : Except PathFault FileTree :=
  match t.place cwd p with
  | .error f => .error f
  | .ok q =>
    if t.get? q = some .directory then .error .isDirectory else .ok (t.insert q (.file text))

/-- The tree with a new directory at a path. -/
def putDirectory (cwd : List Text) (p : Text) : Except PathFault FileTree :=
  match t.place cwd p with
  | .error f => .error f
  | .ok q =>
    if t.get? q = none then .ok (t.insert q .directory) else .error (.other "file exists")

/-- A file is put at the place of its path, which is not that of a directory. -/
theorem putFile_ok {t t' : FileTree} {cwd : List Text} {p text : Text}
    (h : t.putFile cwd p text = .ok t') :
    ∃ q, t.place cwd p = .ok q ∧ t.get? q ≠ some .directory ∧ t' = t.insert q (.file text) := by
  unfold putFile at h
  split at h
  · cases h
  case h_2 q hplace =>
    split at h
    · cases h
    case isFalse hnode =>
      cases h
      exact ⟨q, hplace, hnode, rfl⟩

theorem find_eq_ok {t : FileTree} {cwd q : List Text} {p : Text} {n : Node}
    (hplace : t.place cwd p = .ok q) (hnode : t.get? q = some n) : t.find cwd p = .ok n := by
  unfold find
  rw [hplace]
  dsimp only [bind, Except.bind]
  rw [hnode]
  rfl

theorem sameFiles_putDirectory {t t' : FileTree} {cwd : List Text} {p : Text}
    (h : t.putDirectory cwd p = .ok t') : t.SameFiles t' := by
  unfold putDirectory at h
  split at h
  · cases h
  · split at h
    case isTrue hnone =>
      cases h
      exact t.sameFiles_insert_directory hnone
    case isFalse => cases h

end FileTree

namespace Workspace

theorem putFile_eq (w : Workspace) (p text : Text) :
    w.putFile p text = (w.tree.putFile w.cwd p text).map fun t => { w with tree := t } := by
  unfold putFile FileTree.putFile
  cases w.tree.place w.cwd p with
  | error f => rfl
  | ok q =>
    dsimp only [bind, Except.bind]
    cases w.tree.get? q with
    | none => rfl
    | some n => cases n <;> rfl

theorem putDirectory_eq (w : Workspace) (p : Text) :
    w.putDirectory p = (w.tree.putDirectory w.cwd p).map fun t => { w with tree := t } := by
  unfold putDirectory FileTree.putDirectory
  cases w.tree.place w.cwd p with
  | error f => rfl
  | ok q =>
    dsimp only [bind, Except.bind]
    cases w.tree.get? q <;> rfl

/-! ## Tools that write -/

/-- The path behind `-o` in a command. -/
def outputOf? : List Text → Option Text
  | arg :: p :: rest => if arg = Text.ofString "-o" then some p else outputOf? (p :: rest)
  | _ => none

/-- Commands change nothing but what is at the path behind `-o`, and leave it alone if that is a
directory. -/
def Obedient (w : Workspace) : Prop :=
  ∀ cmd t q, (w.effect cmd t).get? q = t.get? q ∨
    t.get? q ≠ some .directory ∧ ∃ out, outputOf? cmd = some out ∧ t.place w.cwd out = .ok q

/-- The files after some commands. -/
def treeAfter (w : Workspace) (cmds : List (List Text)) (t : FileTree) : FileTree :=
  cmds.foldl (fun t cmd => w.effect cmd t) t

namespace Obedient

variable {w : Workspace} {cmds : List (List Text)} {t : FileTree}

theorem place (h : w.Obedient) {p : Text} {q : List Text} (hp : t.place w.cwd p = .ok q) :
    (w.treeAfter cmds t).place w.cwd p = .ok q := by
  induction cmds generalizing t with
  | nil => exact hp
  | cons cmd cmds ih =>
    refine ih (FileTree.place_mono (fun d hd => ?_) hp)
    rcases h cmd t d with hsame | ⟨hnode, -⟩
    · exact hsame.trans hd
    · exact absurd hd hnode

/-- Commands that write into a directory change only what they write. -/
theorem get? (h : w.Obedient) {dir : Text} {d q : List Text} (hdir : dir ≠ [])
    (hplace : t.place w.cwd dir = .ok d)
    (hcmds : ∀ cmd ∈ cmds,
      ∃ n, outputOf? cmd = some (dir ++ 47 :: n) ∧ Path.isName n ∧ q ≠ d ++ [n]) :
    (w.treeAfter cmds t).get? q = t.get? q := by
  induction cmds generalizing t with
  | nil => rfl
  | cons cmd cmds ih =>
    have hplace' : (w.treeAfter [cmd] t).place w.cwd dir = .ok d := h.place hplace
    refine (ih hplace' fun c hc => hcmds c (List.mem_cons_of_mem cmd hc)).trans ?_
    rcases h cmd t q with hsame | ⟨-, out, hout, hq⟩
    · exact hsame
    · obtain ⟨n, hcmd, hn, hother⟩ := hcmds cmd List.mem_cons_self
      obtain rfl := Option.some.inj (hout.symm.trans hcmd)
      obtain ⟨d', hd', -, rfl⟩ := t.place_child hdir hn hq
      rw [hplace, Except.ok.injEq] at hd'
      exact absurd (by rw [hd']) hother

end Obedient

/-- What tools do that put a text at the path behind `-o`. -/
def writing (cwd : List Text) (text : Text) (cmd : List Text) (t : FileTree) : FileTree :=
  ((outputOf? cmd).bind fun out => (t.putFile cwd out text).toOption).getD t

theorem obedient_writing (w : Workspace) (text : Text) :
    { w with effect := writing w.cwd text }.Obedient := by
  intro cmd t q
  show (writing w.cwd text cmd t).get? q = _ ∨ _
  unfold writing
  cases hout : outputOf? cmd with
  | none => exact .inl rfl
  | some out =>
    rw [Option.bind_some]
    cases hput : t.putFile w.cwd out text with
    | error f => exact .inl rfl
    | ok t' =>
      obtain ⟨r, hplace, hnode, rfl⟩ := FileTree.putFile_ok hput
      by_cases hq : q = r
      · subst hq
        exact .inr ⟨hnode, out, rfl, hplace⟩
      · exact .inl (t.get?_insert_of_ne _ hq)

/-! ## Actions on files -/

variable {α β : Type}

/-- What an action on files answers, and the files after it. -/
def filesRun (m : StateM Workspace α) (t : FileTree) (cwd : List Text) : α × FileTree :=
  ((m.run (.new t cwd [])).1, (m.run (.new t cwd [])).2.tree)

/-- The action looks at the tree and at the working directory only, and changes the tree only. -/
def OnFiles (m : StateM Workspace α) : Prop :=
  ∀ w : Workspace, m.run w =
    ((filesRun m w.tree w.cwd).1, { w with tree := (filesRun m w.tree w.cwd).2 })

/-- The action may make directories, but changes no file. -/
def KeepsFiles (m : StateM Workspace α) : Prop :=
  ∀ w : Workspace, w.tree.SameFiles (m.run w).2.tree

theorem run_bind (m : StateM Workspace α) (f : α → StateM Workspace β) (w : Workspace) :
    (m >>= f).run w = (f (m.run w).1).run (m.run w).2 := rfl

theorem run_change {f : Workspace → Except PathFault Workspace}
    {g : FileTree → List Text → Except PathFault FileTree}
    (h : ∀ w : Workspace, f w = (g w.tree w.cwd).map fun t => { w with tree := t })
    (w : Workspace) :
    (change f).run w = match g w.tree w.cwd with
      | .ok t => (.ok (), { w with tree := t })
      | .error x => (.error x, w) := by
  have hget : (get : StateM Workspace Workspace).run w = (w, w) := rfl
  rw [change, run_bind, hget, h]
  cases g w.tree w.cwd <;> rfl

theorem run_makeDir (p : Text) (w : Workspace) :
    (Host.makeDir p : StateM Workspace (Except PathFault Unit)).run w =
      match w.tree.putDirectory w.cwd p with
      | .ok t => (.ok (), { w with tree := t })
      | .error x => (.error x, w) :=
  run_change (f := (·.putDirectory p)) (g := fun t cwd => t.putDirectory cwd p)
    (fun w => w.putDirectory_eq p) w

theorem run_write (p text : Text) (w : Workspace) :
    (Host.write p text : StateM Workspace (Except PathError Unit)).run w =
      match w.tree.putFile w.cwd p text with
      | .ok t => (.ok (), { w with tree := t })
      | .error x => (.error ⟨"open", p, x⟩, w) := by
  have hfile := run_change (f := (·.putFile p text)) (g := fun t cwd => t.putFile cwd p text)
    (fun w => w.putFile_eq p text) w
  show ((Workspace.change (·.putFile p text) >>= _ : StateM _ _)).run w = _
  rw [run_bind, hfile]
  cases w.tree.putFile w.cwd p text <;> rfl

namespace OnFiles

theorem pure (a : α) : OnFiles (Pure.pure a) := fun _ => rfl

theorem bind {m : StateM Workspace α} {f : α → StateM Workspace β} (hm : OnFiles m)
    (hf : ∀ a, OnFiles (f a)) : OnFiles (m >>= f) := by
  intro w
  unfold filesRun
  rw [run_bind, run_bind, hm w, hm (.new w.tree w.cwd []), hf, hf]
  rfl

theorem stat (p : Text) : OnFiles (Host.stat p) := fun _ => rfl

theorem change {f : Workspace → Except PathFault Workspace}
    {g : FileTree → List Text → Except PathFault FileTree}
    (h : ∀ w : Workspace, f w = (g w.tree w.cwd).map fun t => { w with tree := t }) :
    OnFiles (Workspace.change f) := by
  intro w
  have hnew := run_change h (.new w.tree w.cwd [])
  dsimp only [new] at hnew
  unfold filesRun new
  rw [run_change h, hnew]
  cases g w.tree w.cwd <;> rfl

theorem makeDir (p : Text) : OnFiles (Host.makeDir p) :=
  change (g := fun t cwd => t.putDirectory cwd p) fun w => w.putDirectory_eq p

theorem makeDirsFrom (ps : List Text) : OnFiles (Host.makeDirsFrom ps) := by
  induction ps with
  | nil => exact pure _
  | cons p rest ih =>
    refine (stat p).bind fun found => ?_
    split
    · exact ih
    · exact pure _
    · refine (makeDir p).bind fun made => ?_
      split
      · exact ih
      · exact pure _

end OnFiles

namespace KeepsFiles

theorem pure (a : α) : KeepsFiles (Pure.pure a) := fun w => .refl w.tree

theorem bind {m : StateM Workspace α} {f : α → StateM Workspace β} (hm : KeepsFiles m)
    (hf : ∀ a, KeepsFiles (f a)) : KeepsFiles (m >>= f) :=
  fun w => (hm w).trans (hf _ _)

theorem stat (p : Text) : KeepsFiles (Host.stat p) := fun w => .refl w.tree

theorem makeDir (p : Text) : KeepsFiles (Host.makeDir p) := by
  intro w
  rw [run_makeDir]
  cases h : w.tree.putDirectory w.cwd p with
  | ok t => exact FileTree.sameFiles_putDirectory h
  | error x => exact .refl w.tree

theorem makeDirsFrom (ps : List Text) : KeepsFiles (Host.makeDirsFrom ps) := by
  induction ps with
  | nil => exact pure _
  | cons p rest ih =>
    refine (stat p).bind fun found => ?_
    split
    · exact ih
    · exact pure _
    · refine (makeDir p).bind fun made => ?_
      split
      · exact ih
      · exact pure _

end KeepsFiles

end Workspace

end Assembly
