import Assembly.CommandLine.Arguments
import Assembly.Proofs.Symbol.Name

/-!
# Reading a command line

A command line is a list of arguments, most of them one text and one of them two.  The reader takes
them one after the other, `scan_spell`.  The options never touch the words, so they may as well all
be taken before the words: what comes of a command line is the words in their order, the last value
of each setting and the switches.  `Reads` says so without the reader, field by field of the flags,
and `scan_eq_ok_iff` that the reader accepts exactly this.
-/

namespace Assembly.CommandLine

/-! ## Arguments -/

/-- The options that take no value. -/
inductive Switch
  | strict | asmOnly | skipLink | listing | noColor | debug
deriving DecidableEq, Repr

/-- The options that take a value. -/
inductive Setting
  | bits | buildDir | output
deriving DecidableEq, Repr

/-- A switch, a setting with its value behind an equals sign, the output with its name as an
argument of its own, or a word that does not look like an option. -/
inductive Argument
  | switch (s : Switch)
  | setting (s : Setting) (value : Text)
  | named (value : Text)
  | word (w : Text) (plain : w.head? ≠ some 45)
deriving DecidableEq, Repr

def Switch.text : Switch → Text
  | strict => "--strict"
  | asmOnly => "--asm-only"
  | skipLink => "--skip-link"
  | listing => "--listing"
  | noColor => "--no-color"
  | debug => "--debug"

/-- What stands in front of a value. -/
def Setting.text : Setting → Text
  | bits => "--bits="
  | buildDir => "--build-dir="
  | output => "-o="

namespace Argument

def texts : Argument → List Text
  | switch s => [s.text]
  | setting s value => [s.text ++ value]
  | named value => ["-o", value]
  | word w _ => [w]

/-- The value that an argument gives to a setting. -/
def value? (s : Setting) : Argument → Option Text
  | setting s' value => if s' = s then some value else none
  | named value => if s = .output then some value else none
  | _ => none

def word? : Argument → Option Text
  | word w _ => some w
  | _ => none

end Argument

/-- The arguments as a command line. -/
def spell (as : List Argument) : List Text := as.flatMap Argument.texts

namespace Flags

def isOn (f : Flags) : Switch → Bool
  | .strict => f.strict
  | .asmOnly => f.asmOnly
  | .skipLink => f.skipLink
  | .listing => f.listing
  | .noColor => f.noColor
  | .debug => f.debug

def turnOn (f : Flags) : Switch → Flags
  | .strict => { f with strict := true }
  | .asmOnly => { f with asmOnly := true }
  | .skipLink => { f with skipLink := true }
  | .listing => { f with listing := true }
  | .noColor => { f with noColor := true }
  | .debug => { f with debug := true }

def get (f : Flags) : Setting → Text
  | .bits => f.bits
  | .buildDir => f.buildDir
  | .output => f.output

def put (f : Flags) (value : Text) : Setting → Flags
  | .bits => { f with bits := value }
  | .buildDir => { f with buildDir := value }
  | .output => { f with output := value }

/-- The flags with other words. -/
def withWords (f : Flags) (command file : Text) : Flags :=
  { f with command := command, file := file }

@[simp] theorem isOn_turnOn (f : Flags) (s s' : Switch) :
    (f.turnOn s).isOn s' = (decide (s = s') || f.isOn s') := by
  cases s <;> cases s' <;> rfl

@[simp] theorem get_turnOn (f : Flags) (s : Switch) (s' : Setting) :
    (f.turnOn s).get s' = f.get s' := by
  cases s <;> cases s' <;> rfl

@[simp] theorem isOn_put (f : Flags) (value : Text) (s : Setting) (s' : Switch) :
    (f.put value s).isOn s' = f.isOn s' := by
  cases s <;> cases s' <;> rfl

@[simp] theorem get_put (f : Flags) (value : Text) (s s' : Setting) :
    (f.put value s).get s' = if s = s' then value else f.get s' := by
  cases s <;> cases s' <;> rfl

@[simp] theorem isOn_withWords (f : Flags) (command file : Text) (s : Switch) :
    (f.withWords command file).isOn s = f.isOn s := by
  cases s <;> rfl

@[simp] theorem get_withWords (f : Flags) (command file : Text) (s : Setting) :
    (f.withWords command file).get s = f.get s := by
  cases s <;> rfl

theorem withWords_self (f : Flags) : f.withWords f.command f.file = f := rfl

theorem ext_fields {f g : Flags} (hcommand : f.command = g.command) (hfile : f.file = g.file)
    (hget : ∀ s, f.get s = g.get s) (hon : ∀ s, f.isOn s = g.isOn s) : f = g := by
  obtain ⟨c, p, b, o, d, s₁, s₂, s₃, s₄, s₅, s₆⟩ := f
  obtain ⟨c', p', b', o', d', t₁, t₂, t₃, t₄, t₅, t₆⟩ := g
  obtain rfl : c = c' := hcommand
  obtain rfl : p = p' := hfile
  obtain rfl : b = b' := hget .bits
  obtain rfl : o = o' := hget .output
  obtain rfl : d = d' := hget .buildDir
  obtain rfl : s₁ = t₁ := hon .strict
  obtain rfl : s₂ = t₂ := hon .asmOnly
  obtain rfl : s₃ = t₃ := hon .skipLink
  obtain rfl : s₄ = t₄ := hon .listing
  obtain rfl : s₅ = t₅ := hon .noColor
  obtain rfl : s₆ = t₆ := hon .debug
  rfl

/-! ## One argument -/

/-- What an option changes.  A word is none. -/
def adopt (f : Flags) : Argument → Flags
  | .switch s => f.turnOn s
  | .setting s value => f.put value s
  | .named value => f.put value .output
  | .word _ _ => f

/-- What an argument makes of the flags before it. -/
def take (f : Flags) : Argument → Except ArgError Flags
  | .word w _ => f.word w
  | a => .ok (f.adopt a)

theorem switch?_text (f : Flags) (s : Switch) : f.switch? s.text = some (f.turnOn s) := by
  cases s <;> rfl

theorem switch?_setting (f : Flags) (s : Setting) (value : Text) :
    f.switch? (s.text ++ value) = none := by
  cases s <;> rfl

theorem setting?_text (f : Flags) (s : Setting) (value : Text) :
    f.setting? (s.text ++ value) = some (f.put value s) := by
  unfold setting?
  cases s with
  | bits =>
    rw [Setting.text, Text.after?_append]
    rfl
  | buildDir =>
    have hbits : Text.after? "--bits=" (Text.ofString "--build-dir=" ++ value) = none := rfl
    rw [Setting.text, hbits, Text.after?_append]
    rfl
  | output =>
    have hbits : Text.after? "--bits=" (Text.ofString "-o=" ++ value) = none := rfl
    have hdir : Text.after? "--build-dir=" (Text.ofString "-o=" ++ value) = none := rfl
    rw [Setting.text, hbits, hdir, Text.after?_append]
    rfl

theorem single_of_plain (f : Flags) {w : Text} (h : w.head? ≠ some 45) :
    f.single w = f.word w := by
  have hbeq (t : Text) (ht : t.head? = some 45) : (w == t) = false := by
    rw [beq_eq_false_iff_ne]
    rintro rfl
    exact h ht
  have hafter (t : Text) (ht : t.head? = some 45) : Text.after? t w = none := by
    refine if_neg fun hfront => h ?_
    obtain ⟨r, rfl⟩ := List.isPrefixOf_iff_prefix.mp hfront
    rw [List.head?_append, ht, Option.some_or]
  have hswitch : f.switch? w = none := by
    simp (disch := decide) only [switch?, hbeq, Bool.false_eq_true, if_false]
  have hsetting : f.setting? w = none := by
    simp (disch := decide) only [setting?, hafter]
  rw [single, hswitch, hsetting, Option.or_none]
  exact if_neg h

theorem scan_cons {arg : Text} (f : Flags) (h : arg ≠ Text.ofString "-o") (rest : List Text) :
    f.scan (arg :: rest) = f.single arg >>= fun g => g.scan rest := by
  have harg : (arg == Text.ofString "-o") = false := by simpa using h
  cases rest with
  | nil =>
    rw [scan, harg]
    cases f.single arg <;> rfl
  | cons next rest =>
    rw [scan, harg]
    cases f.single arg <;> rfl

theorem scan_texts_append (f : Flags) (a : Argument) (rest : List Text) :
    f.scan (a.texts ++ rest) = f.take a >>= fun g => g.scan rest := by
  cases a with
  | switch s =>
    have hne : s.text ≠ Text.ofString "-o" := by cases s <;> decide
    have hsingle : f.single s.text = .ok (f.turnOn s) := by rw [single, switch?_text]; rfl
    exact (f.scan_cons hne rest).trans (by rw [hsingle]; rfl)
  | setting s value =>
    have hne : s.text ++ value ≠ Text.ofString "-o" := by
      cases s <;> exact fun h => by cases h
    have hsingle : f.single (s.text ++ value) = .ok (f.put value s) := by
      rw [single, switch?_setting, setting?_text]
      rfl
    exact (f.scan_cons hne rest).trans (by rw [hsingle]; rfl)
  | named value => rfl
  | word w plain =>
    have hne : w ≠ Text.ofString "-o" := by
      rintro rfl
      exact plain rfl
    exact (f.scan_cons hne rest).trans (by rw [f.single_of_plain plain]; rfl)

/-- Reading a command line is taking its arguments one after the other. -/
theorem scan_spell (f : Flags) (as : List Argument) : f.scan (spell as) = as.foldlM take f := by
  induction as generalizing f with
  | nil => rfl
  | cons a as ih =>
    rw [spell, List.flatMap_cons, scan_texts_append, List.foldlM_cons]
    exact congrArg (f.take a >>= ·) (funext ih)

/-! ## Options

Options do not touch the words, so they may as well all be taken first. -/

/-- What the options among the arguments change. -/
def settle (f : Flags) (as : List Argument) : Flags := as.foldl adopt f

theorem adopt_withWords (f : Flags) (command file : Text) (a : Argument) :
    (f.withWords command file).adopt a = (f.adopt a).withWords command file := by
  cases a with
  | switch s => cases s <;> rfl
  | setting s value => cases s <;> rfl
  | named value => rfl
  | word w plain => rfl

theorem words_adopt (f : Flags) (a : Argument) :
    (f.adopt a).command = f.command ∧ (f.adopt a).file = f.file := by
  have h : f.adopt a = (f.adopt a).withWords f.command f.file :=
    f.adopt_withWords f.command f.file a
  exact ⟨(congrArg command h).trans rfl, (congrArg file h).trans rfl⟩

theorem words_settle (f : Flags) (as : List Argument) :
    (f.settle as).command = f.command ∧ (f.settle as).file = f.file := by
  induction as generalizing f with
  | nil => exact ⟨rfl, rfl⟩
  | cons a as ih =>
    obtain ⟨hcommand, hfile⟩ := f.words_adopt a
    rw [← hcommand, ← hfile]
    exact ih (f.adopt a)

theorem word_eq (f : Flags) (w : Text) :
    f.word w =
      if f.command.isEmpty then .ok (f.withWords w f.file)
      else if f.file.isEmpty then .ok (f.withWords f.command w)
      else .error (.unexpected w) := rfl

theorem word_adopt (f : Flags) (a : Argument) (w : Text) :
    (f.adopt a).word w = (f.word w).map (·.adopt a) := by
  obtain ⟨hcommand, hfile⟩ := f.words_adopt a
  rw [word_eq, word_eq, hcommand, hfile]
  split
  · exact congrArg Except.ok (f.adopt_withWords w f.file a).symm
  split
  · exact congrArg Except.ok (f.adopt_withWords f.command w a).symm
  · rfl

theorem word_settle (f : Flags) (as : List Argument) (w : Text) :
    (f.settle as).word w = (f.word w).map (·.settle as) := by
  induction as generalizing f with
  | nil =>
    show f.word w = _
    cases f.word w <;> rfl
  | cons a as ih =>
    have hstep : (f.settle (a :: as)).word w = ((f.adopt a).word w).map (·.settle as) := ih _
    rw [hstep, word_adopt]
    cases f.word w <;> rfl

theorem foldlM_take (f : Flags) (as : List Argument) :
    as.foldlM take f = (as.filterMap Argument.word?).foldlM word (f.settle as) := by
  induction as generalizing f with
  | nil => rfl
  | cons a as ih =>
    cases a with
    | word w plain =>
      show (f.word w >>= fun g => as.foldlM take g) = ((f.settle as).word w >>= fun g => _)
      -- The options behind a word are the same whether it is taken before or after them.
      rw [word_settle]
      cases f.word w with
      | error e => rfl
      | ok g => exact ih g
    | _ => exact ih _

theorem get_adopt (f : Flags) (a : Argument) (s : Setting) :
    (f.adopt a).get s = (a.value? s).getD (f.get s) := by
  cases a with
  | switch s' => exact f.get_turnOn s' s
  | setting s' value =>
    rw [adopt, get_put, Argument.value?]
    split <;> rfl
  | named value =>
    rw [adopt, get_put, Argument.value?]
    cases s <;> rfl
  | word w plain => rfl

theorem isOn_adopt (f : Flags) (a : Argument) (s : Switch) :
    (f.adopt a).isOn s = true ↔ f.isOn s = true ∨ .switch s = a := by
  cases a with
  | switch s' =>
    rw [adopt, isOn_turnOn, Bool.or_eq_true, decide_eq_true_eq, Argument.switch.injEq, or_comm,
      @eq_comm _ s' s]
  | setting s' value => simp [adopt]
  | named value => simp [adopt]
  | word w plain => simp [adopt]

theorem get_settle (f : Flags) (as : List Argument) (s : Setting) :
    (f.settle as).get s = (as.filterMap (Argument.value? s)).getLast?.getD (f.get s) := by
  induction as generalizing f with
  | nil => rfl
  | cons a as ih =>
    refine (ih (f.adopt a)).trans ?_
    rw [get_adopt, List.filterMap_cons]
    cases a.value? s with
    | none => rfl
    | some value =>
      rw [List.getLast?_cons]
      rfl

theorem isOn_settle (f : Flags) (as : List Argument) (s : Switch) :
    (f.settle as).isOn s = true ↔ f.isOn s = true ∨ .switch s ∈ as := by
  induction as generalizing f with
  | nil => simp [settle]
  | cons a as ih =>
    refine (ih (f.adopt a)).trans ?_
    rw [isOn_adopt, List.mem_cons, or_assoc]

end Flags

/-! ## Words -/

/-- The words from the first one that is not empty on. -/
def filled (ws : List Text) : List Text := ws.dropWhile List.isEmpty

/-- The path, if these are the words behind the command. -/
def placeFile (ws : List Text) : Except ArgError Text :=
  match filled ws with
  | [] => .ok []
  | [p] => .ok p
  | _ :: w :: _ => .error (.unexpected w)

/-- The command and the path.  Empty words in front of them count for nothing, but behind the
path no word may follow. -/
def place (ws : List Text) : Except ArgError (Text × Text) :=
  match filled ws with
  | [] => .ok ([], [])
  | c :: r => (placeFile r).map (c, ·)

namespace Flags

theorem foldlM_word_full {f : Flags} (hcommand : f.command ≠ []) (hfile : f.file ≠ [])
    (w : Text) (ws : List Text) : (w :: ws).foldlM word f = .error (.unexpected w) := by
  have hword : f.word w = .error (.unexpected w) := by simp [word_eq, hcommand, hfile]
  rw [List.foldlM_cons, hword]
  rfl

theorem foldlM_word_file {f : Flags} (hcommand : f.command ≠ []) (hfile : f.file = [])
    (ws : List Text) : ws.foldlM word f = (placeFile ws).map (f.withWords f.command ·) := by
  have hword (w : Text) : f.word w = .ok (f.withWords f.command w) := by
    simp [word_eq, hcommand, hfile]
  have hempty : f.withWords f.command [] = f := hfile ▸ f.withWords_self
  induction ws with
  | nil => exact congrArg Except.ok hempty.symm
  | cons w ws ih =>
    rw [List.foldlM_cons, hword]
    cases w with
    | nil =>
      -- An empty word leaves the place of the path free for the next one.
      rw [hempty]
      exact ih
    | cons b r =>
      cases ws with
      | nil => rfl
      | cons w ws =>
        exact foldlM_word_full (f := f.withWords f.command (b :: r)) hcommand
          (List.cons_ne_nil b r) w ws

theorem foldlM_word {f : Flags} (hcommand : f.command = []) (hfile : f.file = [])
    (ws : List Text) : ws.foldlM word f = (place ws).map fun p => f.withWords p.1 p.2 := by
  have hword (w : Text) : f.word w = .ok (f.withWords w []) := by
    simp [word_eq, hcommand, hfile]
  have hempty : f.withWords [] [] = f := by
    calc f.withWords [] [] = f.withWords f.command f.file := by rw [hcommand, hfile]
      _ = f := f.withWords_self
  induction ws with
  | nil => exact congrArg Except.ok hempty.symm
  | cons w ws ih =>
    rw [List.foldlM_cons, hword]
    cases w with
    | nil =>
      rw [hempty]
      exact ih
    | cons b r =>
      have hplace : place ((b :: r) :: ws) = (placeFile ws).map (b :: r, ·) := rfl
      rw [hplace]
      refine (foldlM_word_file (f := f.withWords (b :: r) []) (List.cons_ne_nil b r) rfl
        ws).trans ?_
      cases placeFile ws <;> rfl

end Flags

/-! ## What is read -/

/-- The flags that a command line stands for. -/
structure Reads (as : List Argument) (f : Flags) : Prop where
  words : place (as.filterMap Argument.word?) = .ok (f.command, f.file)
  /-- The last value wins; a setting that is not given is empty. -/
  settings : ∀ s, f.get s = (as.filterMap (Argument.value? s)).getLast?.getD []
  switches : ∀ s, f.isOn s = true ↔ .switch s ∈ as

/-- The reader takes the words in their order, and behind each option only looks for its last
value. -/
theorem scan_eq_map_place (as : List Argument) :
    Flags.empty.scan (spell as) = (place (as.filterMap Argument.word?)).map fun p =>
      (Flags.empty.settle as).withWords p.1 p.2 := by
  obtain ⟨hcommand, hfile⟩ := Flags.empty.words_settle as
  rw [Flags.scan_spell, Flags.foldlM_take, Flags.foldlM_word hcommand hfile]

theorem scan_eq_error_iff {as : List Argument} {e : ArgError} :
    Flags.empty.scan (spell as) = .error e ↔ place (as.filterMap Argument.word?) = .error e := by
  rw [scan_eq_map_place]
  cases place (as.filterMap Argument.word?) with
  | error e' =>
    show Except.error e' = Except.error e ↔ _
    rw [Except.error.injEq, Except.error.injEq]
  | ok p => constructor <;> intro h <;> cases h

theorem reads_settle {as : List Argument} {c p : Text}
    (h : place (as.filterMap Argument.word?) = .ok (c, p)) :
    Reads as ((Flags.empty.settle as).withWords c p) where
  words := h
  settings s := by
    have hunset : Flags.empty.get s = [] := by cases s <;> rfl
    rw [Flags.get_withWords, Flags.get_settle, hunset]
  switches s := by
    have hoff : ¬Flags.empty.isOn s = true := by cases s <;> decide
    rw [Flags.isOn_withWords, Flags.isOn_settle]
    exact or_iff_right hoff

theorem Reads.unique {as : List Argument} {f g : Flags} (hf : Reads as f) (hg : Reads as g) :
    f = g := by
  have hwords := Except.ok.inj (hf.words.symm.trans hg.words)
  refine Flags.ext_fields (congrArg Prod.fst hwords) (congrArg Prod.snd hwords) (fun s => ?_)
    fun s => ?_
  · rw [hf.settings, hg.settings]
  · rw [Bool.eq_iff_iff, hf.switches, hg.switches]

/-- The reader accepts a command line with the flags that it stands for, and with no others. -/
theorem scan_eq_ok_iff {as : List Argument} {f : Flags} :
    Flags.empty.scan (spell as) = .ok f ↔ Reads as f := by
  rw [scan_eq_map_place]
  constructor
  · intro h
    cases hplace : place (as.filterMap Argument.word?) with
    | error e =>
      rw [hplace] at h
      cases h
    | ok p =>
      rw [hplace] at h
      cases h
      exact reads_settle hplace
  · intro h
    rw [h.words]
    exact congrArg Except.ok ((reads_settle h.words).unique h)

end Assembly.CommandLine
