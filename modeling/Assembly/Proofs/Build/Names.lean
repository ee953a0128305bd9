import Assembly.Build.Artifacts
import Assembly.Proofs.Build.Files
import Assembly.Proofs.Text.Quoted

/-!
# Names of the files of a build

The base name of the artifacts has neither points nor slashes, whatever the bytes of the output
name are, so with an extension it is the name of something in a directory.  The directory is
clean, and such a name behind it is a direct child: `toolchain_children`.  The extensions tell the
files apart.
-/

namespace Assembly

namespace BuildOptions

variable (o : BuildOptions)

/-! ## Names -/

/-- A byte of a base name. -/
def isPlainByte (b : UInt8) : Bool := b != 46 && b != 32 && b != 47 && b != 92

theorem isPlainByte_of_mem_nameRune {c : Rune} {b : UInt8} (h : b ∈ nameRune c) :
    isPlainByte b := by
  unfold nameRune at h
  split at h
  · rw [List.mem_singleton.mp (show b ∈ [95] from h)]
    decide
  case isFalse hcode =>
    simp only [not_or] at hcode
    by_cases hascii : c.code < 0x80
    · -- A single byte is its own code.
      rw [Rune.encode, if_pos hascii, List.mem_singleton] at h
      have hb : b.toNat = c.code := by
        rw [h, Rune.toNat_toUInt8]
        omega
      simp only [isPlainByte, Bool.and_eq_true, bne_iff_ne, ne_eq, ← UInt8.toNat_inj, hb]
      exact ⟨⟨⟨hcode.1, hcode.2.1⟩, hcode.2.2.1⟩, hcode.2.2.2⟩
    · have hb := Text.le_of_mem_encode (by omega) h
      simp only [isPlainByte, Bool.and_eq_true, bne_iff_ne, ne_eq, ← UInt8.toNat_inj]
      refine ⟨⟨⟨?_, ?_⟩, ?_⟩, ?_⟩ <;> intro he <;> rw [he] at hb <;> exact absurd hb (by decide)

theorem nameRune_ne_nil (c : Rune) : nameRune c ≠ [] := by
  unfold nameRune
  split
  · exact List.cons_ne_nil _ _
  · exact List.ne_nil_of_length_pos (Rune.length_encode_pos c.code)

theorem isPlainByte_of_mem_baseName {b : UInt8} (h : b ∈ o.baseName) : isPlainByte b := by
  obtain ⟨c, -, hb⟩ := List.mem_flatMap.mp h
  exact isPlainByte_of_mem_nameRune hb

theorem baseName_ne_nil : o.baseName ≠ [] := by
  unfold baseName
  have hname : (if o.outputName.isEmpty then Text.ofString "output" else o.outputName) ≠ [] := by
    split
    · decide
    case isFalse h => simpa using h
  obtain ⟨b, r, hcons⟩ := List.exists_cons_of_ne_nil hname
  rw [hcons, Text.runes_cons, List.flatMap_cons]
  exact List.append_ne_nil_of_left_ne_nil (nameRune_ne_nil _) _

/-- With a base name in front, an extension makes a name. -/
theorem isName_baseName_append {ext : Text} (h : 47 ∉ ext) : Path.isName (o.baseName ++ ext) := by
  obtain ⟨b, r, hbase⟩ := List.exists_cons_of_ne_nil o.baseName_ne_nil
  have hslash : 47 ∉ o.baseName := fun hm =>
    absurd (o.isPlainByte_of_mem_baseName hm) (by decide)
  have hpoint : b ≠ 46 := by
    have hb := o.isPlainByte_of_mem_baseName (b := b) (by rw [hbase]; exact List.mem_cons_self)
    intro he
    subst he
    exact absurd hb (by decide)
  have hhead (t : Text) : b :: (r ++ ext) ≠ 46 :: t := fun he => hpoint (List.cons.inj he).1
  rw [hbase, List.mem_cons, not_or] at hslash
  have hdot : b :: (r ++ ext) ≠ Text.ofString "." := hhead []
  have hup : b :: (r ++ ext) ≠ Text.ofString ".." := hhead [46]
  rw [hbase, List.cons_append, Path.isName]
  simp [hslash, h, hdot, hup]

theorem isName_targetName (t : Target) : Path.isName t.name := by
  cases t <;> decide

theorem buildDir_ne_nil :
    (if o.buildDir.isEmpty then Text.ofString "build" else o.buildDir) ≠ [] := by
  split
  · decide
  case isFalse h => simpa using h

theorem directory_eq : o.directory = Path.clean
    ((if o.buildDir.isEmpty then Text.ofString "build" else o.buildDir) ++
      47 :: o.target.name) := by
  rw [directory, Path.join, if_neg (by simpa using o.buildDir_ne_nil)]

theorem directory_ne_nil : o.directory ≠ [] := by
  rw [directory_eq]
  exact Path.clean_ne_nil _

/-! ## Paths -/

theorem slash_notMem_extension (t : Target) :
    47 ∉ t.asmExtension ∧ 47 ∉ t.objectExtension ∧ 47 ∉ t.programExtension := by
  cases t <;> decide

theorem join_directory {ext : Text} (h : 47 ∉ ext) :
    Path.join o.directory (o.baseName ++ ext) = o.directory ++ 47 :: (o.baseName ++ ext) := by
  rw [directory_eq]
  exact Path.join_child o.buildDir_ne_nil (isName_targetName _) (o.isName_baseName_append h)

theorem asmFile_eq :
    o.toolchain.asmFile = o.directory ++ 47 :: (o.baseName ++ o.target.asmExtension) :=
  o.join_directory (slash_notMem_extension o.target).1

theorem objFile_eq :
    o.toolchain.objFile = o.directory ++ 47 :: (o.baseName ++ o.target.objectExtension) :=
  o.join_directory (slash_notMem_extension o.target).2.1

theorem exeFile_eq :
    o.toolchain.exeFile = o.directory ++ 47 :: (o.baseName ++ o.target.programExtension) :=
  o.join_directory (slash_notMem_extension o.target).2.2

theorem toolchain_children {f : Text}
    (h : f ∈ [o.toolchain.asmFile, o.toolchain.objFile, o.toolchain.exeFile]) :
    Path.IsChild o.directory f := by
  obtain ⟨hasm, hobj, hexe⟩ := slash_notMem_extension o.target
  simp only [List.mem_cons, List.not_mem_nil, or_false] at h
  obtain rfl | rfl | rfl := h
  · exact ⟨_, o.isName_baseName_append hasm, o.asmFile_eq⟩
  · exact ⟨_, o.isName_baseName_append hobj, o.objFile_eq⟩
  · exact ⟨_, o.isName_baseName_append hexe, o.exeFile_eq⟩

/-- Of two files of a build, one is the other if they have the same extension. -/
theorem file_inj {ext ext' : Text} :
    o.directory ++ 47 :: (o.baseName ++ ext) = o.directory ++ 47 :: (o.baseName ++ ext') ↔
      ext = ext' := by
  rw [List.append_cancel_left_eq, List.cons.injEq, List.append_cancel_left_eq]
  exact ⟨fun h => h.2, fun h => ⟨rfl, h⟩⟩

theorem asmFile_ne_objFile : o.toolchain.asmFile ≠ o.toolchain.objFile := by
  rw [asmFile_eq, objFile_eq, ne_eq, file_inj]
  cases o.target <;> decide

theorem asmFile_ne_exeFile : o.toolchain.asmFile ≠ o.toolchain.exeFile := by
  rw [asmFile_eq, exeFile_eq, ne_eq, file_inj]
  cases o.target <;> decide

theorem objFile_eq_exeFile_iff :
    o.toolchain.objFile = o.toolchain.exeFile ↔ o.target.objectFormat = .bin := by
  rw [objFile_eq, exeFile_eq, file_inj]
  cases o.target <;> decide

end BuildOptions

theorem Path.IsChild.place {dir f : Text} (h : Path.IsChild dir f) (hdir : dir ≠ [])
    {t : FileTree} {cwd q : List Text} (hq : t.place cwd f = .ok q) :
    ∃ d n, t.place cwd dir = .ok d ∧ q = d ++ [n] := by
  obtain ⟨n, hn, rfl⟩ := h
  obtain ⟨d, hd, -, rfl⟩ := t.place_child hdir hn hq
  exact ⟨d, n, hd, rfl⟩

end Assembly
