import Mathlib.Data.List.Nodup
import Assembly.Proofs.Symbol.Phase

/-!
# Names that were issued

A name that the engine makes up is issued once.  The counters and flags of the stock say which
names are: a number that is used up stands for one literal, of a number or of a text, or for
one printed text; a flag stands for the routine and its storage.  `Stock.Issued` keeps the
account, and every phase of an operation keeps it up.
-/

namespace Assembly

/-- What a name is counted as: literals of both kinds are numbered together. -/
def GeneratedName.slot : GeneratedName → GeneratedName
  | textLiteral n => floatLiteral n
  | g => g

/-- The names that come with a routine. -/
def Builtin.names : Builtin → List GeneratedName
  | printInt => [.printBuffer, .newline, .routine .printInt]
  | printFloat => [.floatBuffer, .routine .printFloat]

namespace Stock

def has (s : Stock) : Builtin → Bool
  | .printInt => s.printIntAdded
  | .printFloat => s.printFloatAdded

/-- The number of the name is used up, or its flag is set. -/
def Issues (s : Stock) : GeneratedName → Prop
  | .floatLiteral n | .textLiteral n => n < s.literals
  | .printedText n => n < s.printBuffers
  | .printBuffer | .newline => s.has .printInt = true
  | .floatBuffer => s.has .printFloat = true
  | .routine b => s.has b = true

/-- The names that the counters and flags stand for, one for each number and each flag. -/
structure Issued (s : Stock) (gs : List GeneratedName) : Prop where
  once : (gs.map GeneratedName.slot).Nodup
  mem_iff : ∀ g : GeneratedName, g.slot ∈ gs.map GeneratedName.slot ↔ s.Issues g

variable {s s' : Stock} {gs new : List GeneratedName}

theorem Issued.nodup (h : s.Issued gs) : (gs.map GeneratedName.text).Nodup :=
  (List.Nodup.of_map _ h.once).map GeneratedName.text_injective

theorem Issued.add (h : s.Issued gs) (hnew : (new.map GeneratedName.slot).Nodup)
    (hfresh : ∀ g ∈ new, ¬ s.Issues g)
    (hiff : ∀ g : GeneratedName, s'.Issues g ↔ s.Issues g ∨ g.slot ∈ new.map GeneratedName.slot) :
    s'.Issued (gs ++ new) := by
  constructor
  · rw [List.map_append]
    refine List.Nodup.append h.once hnew fun k hold hk => ?_
    obtain ⟨g, hg, rfl⟩ := List.mem_map.mp hk
    exact hfresh g hg ((h.mem_iff g).mp hold)
  · intro g
    rw [List.map_append, List.mem_append, h.mem_iff, hiff]

theorem Issued.same (h : s.Issued gs) (hsame : ∀ g, s'.Issues g ↔ s.Issues g) :
    s'.Issued (gs ++ []) := by
  refine h.add List.nodup_nil (fun g hg => absurd hg List.not_mem_nil) fun g => ?_
  rw [hsame]
  simp

theorem Issued.literal (h : s.Issued gs) {g : GeneratedName}
    (hg : g = .floatLiteral s.literals ∨ g = .textLiteral s.literals)
    (hnext : s'.literals = s.literals + 1) (hprints : s'.printBuffers = s.printBuffers)
    (hhas : ∀ b, s'.has b = s.has b) : s'.Issued (gs ++ [g]) := by
  have hslot : g.slot = .floatLiteral s.literals := by rcases hg with rfl | rfl <;> rfl
  refine h.add (by simp) ?_ fun k => ?_
  · rcases hg with rfl | rfl <;> simp [Issues]
  · rw [List.map_singleton, List.mem_singleton, hslot]
    cases k with
    | floatLiteral n | textLiteral n =>
      simp only [Issues, GeneratedName.slot, hnext, GeneratedName.floatLiteral.injEq]
      omega
    | _ => simp [Issues, GeneratedName.slot, hprints, hhas]

theorem Issued.printed (h : s.Issued gs) (hnext : s'.printBuffers = s.printBuffers + 1)
    (hliterals : s'.literals = s.literals) (hhas : ∀ b, s'.has b = s.has b) :
    s'.Issued (gs ++ [.printedText s.printBuffers]) := by
  refine h.add (by simp) (by simp [Issues]) fun k => ?_
  rw [List.map_singleton, List.mem_singleton]
  cases k with
  | printedText n =>
    simp only [Issues, GeneratedName.slot, hnext, GeneratedName.printedText.injEq]
    omega
  | _ => simp [Issues, GeneratedName.slot, hliterals, hhas]

theorem Issued.joining (h : s.Issued gs) {b : Builtin} (hold : s.has b = false)
    (hnew : ∀ c, s'.has c = (s.has c || c = b)) (hliterals : s'.literals = s.literals)
    (hprints : s'.printBuffers = s.printBuffers) : s'.Issued (gs ++ b.names) := by
  refine h.add (by cases b <;> decide) ?_ fun k => ?_
  · cases b <;> simp [Builtin.names, Issues, hold]
  · cases b <;> cases k <;>
      simp [Issues, Builtin.names, GeneratedName.slot, hliterals, hprints, hnew]

end Stock

theorem Engine.issued_new (t : Target) (strict : Bool) : (new t strict).stock.Issued [] := by
  refine ⟨List.nodup_nil, fun g => ?_⟩
  cases g with
  | routine b => cases b <;> simp [Stock.Issues, Stock.has, stock, new]
  | _ => simp [Stock.Issues, Stock.has, stock, new]

variable {q : Request} {e : Engine} {ms : List Move} {gs : List GeneratedName}

theorem Move.labels_of_keeps {name : Text} {m : Move} (h : m.keeps name) :
    m.labels = [name] := by
  cases m with
  | reserve r => exact congrArg (fun l => [l]) (of_decide_eq_true h)
  | store d => exact congrArg (fun l => [l]) (of_decide_eq_true h)
  | _ => cases h

/-- A phase adds the symbol of the request to the labels, or names that it issues. -/
theorem Phase.issues (h : Phase q e ms) (hgs : e.stock.Issued gs) :
    ∃ (us : List Text) (new : List GeneratedName), (∀ l ∈ us, q.declares = some l) ∧
      (∀ g ∈ new, .define g.text ∈ ms) ∧ ms.flatMap Move.labels = us ++ new.map GeneratedName.text ∧
      (e.makeAll ms).stock.Issued (gs ++ new) := by
  rw [Engine.makeAll_stock]
  cases h with
  | @idle m hm =>
    have hlabels : m.labels = [] := by cases m <;> first | rfl | cases hm
    refine ⟨[], [], by simp, by simp, by simp [hlabels], hgs.same fun g => ?_⟩
    rw [List.foldl_cons, List.foldl_nil, Stock.note_of_idle _ _ hm]
  | instr | call | define => exact ⟨[], [], by simp, by simp, rfl, hgs.same fun _ => .rfl⟩
  | @keep name hq m hm =>
    have hstock : ∀ g, (e.stock.note e.target m).Issues g ↔ e.stock.Issues g := by
      cases m <;> first | exact fun _ => .rfl | cases hm
    refine ⟨[name], [], by simpa using hq, by simp, ?_, hgs.same hstock⟩
    rw [List.flatMap_singleton, Move.labels_of_keeps hm]
    rfl
  | @enter name hq params hc =>
    exact ⟨[name], [], by simpa using hq, by simp, rfl, hgs.same fun _ => .rfl⟩
  | @literal g hg d c =>
    exact ⟨[], [g], by simp, by simp, rfl, hgs.literal hg rfl rfl fun b => by cases b <;> rfl⟩
  | printed c =>
    refine ⟨[], [.printedText e.printBuffers], by simp, by simp, rfl, ?_⟩
    exact hgs.printed rfl rfl fun b => by cases b <;> rfl
  | @joining b hb hint =>
    refine ⟨[], b.names, by simp, by cases b <;> decide, by cases b <;> decide, ?_⟩
    refine hgs.joining hb (fun c => ?_) (by cases b <;> rfl) (by cases b <;> rfl)
    cases b <;> cases c <;> simp [Emit.joining, Stock.note, Stock.has]

theorem Phased.perm_labels (h : Phased q e ms) (hu : e.Unlabelled) :
    (e.makeAll ms).labels.Perm (e.labels ++ ms.flatMap Move.labels) := by
  induction h with
  | nil => simp
  | @cons e ms ns h _ ih =>
    have hphase : (e.makeAll ms).labels.Perm (e.labels ++ ms.flatMap Move.labels) := by
      rw [List.perm_iff_count]
      intro l
      rw [h.count_labels hu, List.count_append]
    rw [Engine.makeAll_append, List.flatMap_append, ← List.append_assoc]
    exact (ih (hu.makeAll ms)).trans (hphase.append_right _)

theorem Phased.issues (h : Phased q e ms) (hgs : e.stock.Issued gs) :
    ∃ (us : List Text) (new : List GeneratedName), (∀ l ∈ us, q.declares = some l) ∧
      (∀ g ∈ new, .define g.text ∈ ms) ∧
      (ms.flatMap Move.labels).Perm (us ++ new.map GeneratedName.text) ∧
      (e.makeAll ms).stock.Issued (gs ++ new) := by
  induction h generalizing gs with
  | nil => exact ⟨[], [], by simp, by simp, .refl _, by simpa using hgs⟩
  | @cons e ms ns h _ ih =>
    obtain ⟨us, new, hus, hdefine, hlabels, hissued⟩ := h.issues hgs
    obtain ⟨us', new', hus', hdefine', hlabels', hissued'⟩ := ih hissued
    refine ⟨us ++ us', new ++ new', ?_, ?_, ?_, ?_⟩
    · exact fun l hl => (List.mem_append.mp hl).elim (hus l) (hus' l)
    · intro g hg
      rcases List.mem_append.mp hg with hg | hg
      · exact List.mem_append_left _ (hdefine g hg)
      · exact List.mem_append_right _ (hdefine' g hg)
    · rw [List.perm_iff_count]
      intro l
      have hrest := hlabels'.count_eq l
      rw [List.count_append] at hrest
      simp only [List.flatMap_append, hlabels, List.map_append, List.count_append, hrest]
      omega
    · rw [Engine.makeAll_append, ← List.append_assoc]
      exact hissued'

end Assembly
