import Assembly.Proofs.Script.Command
import Assembly.Proofs.Text.Rune

/-!
# Filled templates

`Scans` says how a template is read from the left: where a placeholder begins, the whole placeholder
is a hole, and every other byte stands for itself.  A name ends at the first byte that no name has,
so at most one placeholder begins at a place, and a template is read in one way only.

`code_substitutes` says what filling a template gives: the text of each hole in its place, and an
error for the first hole whose name is not bound.  The text of a hole is never read as a template.
-/

namespace Assembly.Script

namespace Template

/-! ## Placeholders -/

/-- The bytes that a name may begin with. -/
def nameLetters : Text := "ABCDEFGHIJKLMNOPQRSTUVWXYZabcdefghijklmnopqrstuvwxyz_"

/-- The bytes that a name may have behind its first. -/
def nameBytes : Text := nameLetters ++ "0123456789"

/-- An ASCII identifier. -/
def IsHoleName (name : Text) : Prop := ∃ c r, name = c :: r ∧ c ∈ nameLetters ∧ r ⊆ nameBytes

/-- The text of a placeholder, and the hole that it makes: `{name}` or `{name:N}`. -/
inductive Placeholder : Text → Piece → Prop
  | plain {name : Text} (hname : IsHoleName name) :
    Placeholder (123 :: (name ++ [125])) (.hole name none)
  | sized {name : Text} {n : Nat} (hname : IsHoleName name) (hn : n ∈ [1, 2, 4, 8]) :
    Placeholder (123 :: (name ++ 58 :: (Text.ofNat n ++ [125]))) (.hole name (some n))

/-- How a template is read. -/
inductive Scans : Text → List Piece → Prop
  | nil : Scans [] []
  | hole {p : Text} {h : Piece} {rest : Text} {ps : List Piece} (hp : Placeholder p h)
    (hrest : Scans rest ps) : Scans (p ++ rest) (h :: ps)
  | byte {c : UInt8} {rest : Text} {ps : List Piece}
    (hc : ∀ p h, Placeholder p h → ¬ p <+: c :: rest) (hrest : Scans rest ps) :
    Scans (c :: rest) (.byte c :: ps)

theorem startsHoleName_iff {c : UInt8} : startsHoleName c ↔ c ∈ nameLetters := by
  have hall : nameLetters.all startsHoleName := by decide
  refine ⟨?_, List.all_eq_true.mp hall c⟩
  exact Rune.forall_byte (P := fun c => startsHoleName c → c ∈ nameLetters) (by decide +kernel) c

theorem continuesHoleName_iff {c : UInt8} : continuesHoleName c ↔ c ∈ nameBytes := by
  have hall : nameBytes.all continuesHoleName := by decide
  refine ⟨?_, List.all_eq_true.mp hall c⟩
  exact Rune.forall_byte (P := fun c => continuesHoleName c → c ∈ nameBytes) (by decide +kernel) c

theorem isHoleName_iff {name : Text} :
    IsHoleName name ↔ name.head?.any startsHoleName ∧ ∀ c ∈ name, continuesHoleName c := by
  cases name with
  | nil => simp [IsHoleName]
  | cons c r =>
    have hfirst : c ∈ nameLetters → c ∈ nameBytes := fun hc => List.mem_append_left _ hc
    simp only [IsHoleName, List.cons.injEq, List.head?_cons, Option.any_some, startsHoleName_iff,
      List.forall_mem_cons, continuesHoleName_iff]
    constructor
    · rintro ⟨_, _, ⟨rfl, rfl⟩, hc, hr⟩
      exact ⟨hc, hfirst hc, fun d hd => hr hd⟩
    · rintro ⟨hc, -, hr⟩
      exact ⟨c, r, ⟨rfl, rfl⟩, hc, hr⟩

theorem takeWhile_name {name : Text} (hname : IsHoleName name) {c : UInt8}
    (hc : continuesHoleName c = false) (rest : Text) :
    (name ++ c :: rest).takeWhile continuesHoleName = name := by
  have hstop : ¬ continuesHoleName c = true := by rw [hc]; decide
  rw [List.takeWhile_append_of_pos (isHoleName_iff.mp hname).2, List.takeWhile_cons_of_neg hstop,
    List.append_nil]

theorem hole?_plain {name : Text} (hname : IsHoleName name) (rest : Text) :
    hole? (name ++ 125 :: rest) = some (.hole name none, name.length + 1) := by
  rw [hole?, takeWhile_name hname (by decide), if_pos (isHoleName_iff.mp hname).1, List.drop_left]
  rfl

theorem hole?_sized {name : Text} (hname : IsHoleName name) (d : UInt8) (rest : Text) :
    hole? (name ++ 58 :: d :: 125 :: rest) =
      (holeSize? d).map fun n => (.hole name (some n), name.length + 3) := by
  rw [hole?, takeWhile_name hname (by decide), if_pos (isHoleName_iff.mp hname).1, List.drop_left]
  rfl

theorem holeSize?_of_mem {n : Nat} (hn : n ∈ [1, 2, 4, 8]) :
    ∃ d, Text.ofNat n = [d] ∧ holeSize? d = some n := by
  have hall : ∀ n ∈ [1, 2, 4, 8], Text.ofNat n = [(48 + n).toUInt8] ∧
      holeSize? (48 + n).toUInt8 = some n := by decide
  exact ⟨_, hall n hn⟩

theorem of_holeSize? {d : UInt8} {n : Nat} (h : holeSize? d = some n) :
    n ∈ [1, 2, 4, 8] ∧ Text.ofNat n = [d] := by
  rw [holeSize?] at h
  split at h
  case isTrue hd =>
    cases h
    rcases hd with rfl | rfl | rfl | rfl
    all_goals decide
  case isFalse => cases h

theorem hole?_of_placeholder {p : Text} {h : Piece} (hp : Placeholder p h) :
    ∃ r, p = 123 :: r ∧ ∀ rest, hole? (r ++ rest) = some (h, r.length) := by
  cases hp with
  | @plain name hname =>
    refine ⟨name ++ [125], rfl, fun rest => ?_⟩
    rw [List.append_assoc, List.singleton_append, hole?_plain hname, List.length_append]
    rfl
  | @sized name n hname hn =>
    obtain ⟨d, hd, hsize⟩ := holeSize?_of_mem hn
    refine ⟨_, rfl, fun rest => ?_⟩
    rw [hd, List.append_assoc]
    show hole? (name ++ 58 :: d :: 125 :: rest) = _
    rw [hole?_sized hname, hsize, List.length_append]
    rfl

theorem placeholder_of_hole? {t : Text} {h : Piece} {n : Nat} (hh : hole? t = some (h, n)) :
    ∃ p, Placeholder p h ∧ p <+: 123 :: t := by
  have hbytes : ∀ c ∈ t.takeWhile continuesHoleName, continuesHoleName c :=
    List.all_eq_true.mp List.all_takeWhile
  obtain ⟨rest, hrest⟩ := List.takeWhile_prefix continuesHoleName (l := t)
  rw [hole?] at hh
  generalize t.takeWhile continuesHoleName = name at hh hrest hbytes
  subst hrest
  rw [List.drop_left] at hh
  split at hh
  case isFalse => cases hh
  case isTrue hfirst =>
    have hname : IsHoleName name := isHoleName_iff.mpr ⟨hfirst, hbytes⟩
    split at hh
    case h_1 r =>
      cases hh
      exact ⟨_, .plain hname, r, by simp⟩
    case h_2 d r =>
      obtain ⟨k, hk, hpair⟩ := Option.map_eq_some_iff.mp hh
      cases hpair
      obtain ⟨hsize, htext⟩ := of_holeSize? hk
      exact ⟨_, .sized hname hsize, r, by simp [htext]⟩
    case h_3 => cases hh

/-! ## Reading a template -/

theorem piecesFrom_eq_drop (n : Nat) (t : Text) : piecesFrom n t = pieces (t.drop n) := by
  induction n generalizing t with
  | zero => rfl
  | succ n ih =>
    cases t with
    | nil => rfl
    | cons c r => exact ih r

theorem pieces_of_placeholder {p : Text} {h : Piece} (hp : Placeholder p h) (rest : Text) :
    pieces (p ++ rest) = h :: pieces rest := by
  obtain ⟨r, rfl, hhole⟩ := hole?_of_placeholder hp
  rw [List.cons_append, pieces, piecesFrom, if_pos rfl, hhole rest]
  dsimp only
  rw [piecesFrom_eq_drop, List.drop_left]

theorem pieces_byte {c : UInt8} {r : Text} (hc : ∀ p h, Placeholder p h → ¬ p <+: c :: r) :
    pieces (c :: r) = .byte c :: pieces r := by
  rw [pieces, piecesFrom]
  by_cases hbrace : c = 123
  · subst hbrace
    rw [if_pos rfl]
    cases hh : hole? r with
    | none => rfl
    | some found =>
      obtain ⟨h, n⟩ := found
      obtain ⟨p, hp, hprefix⟩ := placeholder_of_hole? hh
      exact absurd hprefix (hc p h hp)
  · rw [if_neg hbrace]
    rfl

theorem scans_pieces (t : Text) : Scans t (pieces t) := by
  induction hn : t.length using Nat.strongRecOn generalizing t with
  | ind n ih =>
    subst hn
    cases t with
    | nil => exact .nil
    | cons c r =>
      by_cases hfound : ∃ p h, Placeholder p h ∧ p <+: c :: r
      · obtain ⟨p, h, hp, rest, hrest⟩ := hfound
        rw [← hrest, pieces_of_placeholder hp]
        refine .hole hp (ih rest.length ?_ rest rfl)
        obtain ⟨r', rfl, -⟩ := hole?_of_placeholder hp
        rw [← hrest, List.cons_append, List.length_cons, List.length_append]
        omega
      · have hc : ∀ p h, Placeholder p h → ¬ p <+: c :: r :=
          fun p h hp hprefix => hfound ⟨p, h, hp, hprefix⟩
        rw [pieces_byte hc]
        exact .byte hc (ih r.length (Nat.lt_succ_self _) r rfl)

/-- A template is read in one way. -/
theorem scans_iff {t : Text} {ps : List Piece} : Scans t ps ↔ ps = pieces t := by
  refine ⟨fun h => ?_, fun h => h ▸ scans_pieces t⟩
  induction h with
  | nil => rfl
  | hole hp _ ih => rw [pieces_of_placeholder hp, ih]
  | byte hc _ ih => rw [pieces_byte hc, ih]

/-! ## Filling a template -/

theorem fill_byte (value : Text → Option Nat → Option Text) (b : UInt8) (ps : List Piece) :
    fill value (.byte b :: ps) = (fill value ps).map (b :: ·) := by
  rw [fill]
  cases fill value ps <;> rfl

theorem fill_hole {value : Text → Option Nat → Option Text} {name t : Text} {size : Option Nat}
    (h : value name size = some t) (ps : List Piece) :
    fill value (.hole name size :: ps) = (fill value ps).map (t ++ ·) := by
  rw [fill, h]
  cases fill value ps <;> rfl

theorem fill_missing {value : Text → Option Nat → Option Text} {name : Text} {size : Option Nat}
    (h : value name size = none) (ps : List Piece) :
    fill value (.hole name size :: ps) = .error name := by
  rw [fill, h]

end Template

namespace Emitter

/-- The text that stands for a piece: a byte for itself, a hole for the value of its name.  A size
counts for registers only. -/
inductive Stands (em : Emitter) : Piece → Text → Prop
  | byte (b : UInt8) : Stands em (.byte b) [b]
  | resized {name : Text} {n : Nat} {v : Value} (hv : em.lookup name = some v)
    (hreg : v.isRegister) : Stands em (.hole name (some n)) (em.engine.target.resize v.name n)
  | operand {name : Text} {size : Option Nat} {v : Value} (hv : em.lookup name = some v)
    (hsize : size = none ∨ v.isRegister = false) : Stands em (.hole name size) v.operand.text

/-- The text of pieces is the text that stands for each of them, in turn. -/
inductive Fills (em : Emitter) : List Piece → Text → Prop
  | nil : Fills em [] []
  | cons {p : Piece} {ps : List Piece} {t u : Text} (hp : em.Stands p t) (hps : Fills em ps u) :
    Fills em (p :: ps) (t ++ u)

/-- A piece is a hole whose name is not bound. -/
inductive Unbound (em : Emitter) (name : Text) : Piece → Prop
  | hole {size : Option Nat} (h : em.lookup name = none) : Unbound em name (.hole name size)

/-- The first hole whose name is not bound. -/
def FirstUnbound (em : Emitter) (ps : List Piece) (name : Text) : Prop :=
  ∃ before p after, ps = before ++ p :: after ∧ em.Unbound name p ∧
    ∀ q ∈ before, ∀ other, ¬ em.Unbound other q

variable {em : Emitter} {name : Text} {size : Option Nat} {ps : List Piece}

theorem holeText_of_stands {t : Text} (h : em.Stands (.hole name size) t) :
    em.holeText name size = some t := by
  cases h with
  | resized hv hreg => simp [holeText, hv, hreg]
  | operand hv hsize =>
    rw [holeText, hv]
    rcases hsize with rfl | hreg
    · rfl
    · cases size <;> simp [hreg]

theorem exists_stands {v : Value} (h : em.lookup name = some v) (size : Option Nat) :
    ∃ t, em.Stands (.hole name size) t := by
  cases size with
  | none => exact ⟨_, .operand h (.inl rfl)⟩
  | some n =>
    by_cases hreg : v.isRegister
    · exact ⟨_, .resized h hreg⟩
    · exact ⟨_, .operand h (.inr (Bool.eq_false_iff.mpr hreg))⟩

theorem fill_of_fills {u : Text} (h : em.Fills ps u) :
    Template.fill em.holeText ps = .ok u := by
  induction h with
  | nil => rfl
  | @cons p ps t u hp _ ih =>
    cases p with
    | byte b =>
      cases hp
      rw [Template.fill_byte, ih]
      rfl
    | hole name size =>
      rw [Template.fill_hole (holeText_of_stands hp), ih]
      rfl

theorem fill_of_firstUnbound (h : em.FirstUnbound ps name) :
    Template.fill em.holeText ps = .error name := by
  obtain ⟨before, p, after, rfl, hp, hbefore⟩ := h
  induction before with
  | nil =>
    cases hp with
    | hole hnone => exact Template.fill_missing (by rw [holeText, hnone]; rfl) after
  | cons q before ih =>
    obtain ⟨hq, hrest⟩ := List.forall_mem_cons.mp hbefore
    rw [List.cons_append]
    cases q with
    | byte b =>
      rw [Template.fill_byte, ih hrest]
      rfl
    | hole other size =>
      cases hv : em.lookup other with
      | none => exact absurd (.hole hv) (hq other)
      | some v =>
        obtain ⟨t, ht⟩ := exists_stands hv size
        rw [Template.fill_hole (holeText_of_stands ht), ih hrest]
        rfl

/-- Either every hole has a text, or there is a first one that has none. -/
theorem fills_or_firstUnbound (em : Emitter) (ps : List Piece) :
    (∃ u, em.Fills ps u) ∨ ∃ name, em.FirstUnbound ps name := by
  induction ps with
  | nil => exact .inl ⟨[], .nil⟩
  | cons p ps ih =>
    have hbound : (∃ t, em.Stands p t) ∧ (∀ other, ¬ em.Unbound other p) ∨
        ∃ name, em.Unbound name p := by
      cases p with
      | byte b => exact .inl ⟨⟨[b], .byte b⟩, fun other h => by cases h⟩
      | hole name size =>
        cases hv : em.lookup name with
        | none => exact .inr ⟨name, .hole hv⟩
        | some v =>
          refine .inl ⟨exists_stands hv size, fun other h => ?_⟩
          cases h with
          | hole hnone => rw [hnone] at hv; cases hv
    rcases hbound with ⟨⟨t, ht⟩, hp⟩ | ⟨name, hname⟩
    · rcases ih with ⟨u, hu⟩ | ⟨name, before, q, after, rfl, hq, hbefore⟩
      · exact .inl ⟨t ++ u, .cons ht hu⟩
      · exact .inr ⟨name, p :: before, q, after, rfl, hq, List.forall_mem_cons.mpr ⟨hp, hbefore⟩⟩
    · exact .inr ⟨name, [], p, ps, rfl, hname, List.forall_mem_nil _⟩

theorem fill_eq_ok_iff {u : Text} : Template.fill em.holeText ps = .ok u ↔ em.Fills ps u := by
  refine ⟨fun h => ?_, fill_of_fills⟩
  rcases fills_or_firstUnbound em ps with ⟨u', hu⟩ | ⟨name, hname⟩
  · rw [fill_of_fills hu] at h
    cases h
    exact hu
  · rw [fill_of_firstUnbound hname] at h
    cases h

theorem fill_eq_error_iff :
    Template.fill em.holeText ps = .error name ↔ em.FirstUnbound ps name := by
  refine ⟨fun h => ?_, fill_of_firstUnbound⟩
  rcases fills_or_firstUnbound em ps with ⟨u, hu⟩ | ⟨other, hother⟩
  · rw [fill_of_fills hu] at h
    cases h
  · rw [fill_of_firstUnbound hother] at h
    cases h
    exact hother

theorem lookup_of_fills {u : Text} (h : em.Fills ps u) (hmem : Piece.hole name size ∈ ps) :
    em.lookup name ≠ none := by
  induction h with
  | nil => cases hmem
  | cons hp _ ih =>
    rcases List.mem_cons.mp hmem with rfl | hmem
    · cases hp with
      | resized hv | operand hv => rw [hv]; exact Option.some_ne_none _
    · exact ih hmem

/-- There is a first hole without a value as soon as there is one. -/
theorem exists_firstUnbound_iff :
    (∃ name, em.FirstUnbound ps name) ↔
      ∃ name size, Piece.hole name size ∈ ps ∧ em.lookup name = none := by
  constructor
  · rintro ⟨name, before, _, after, rfl, ⟨hnone⟩, -⟩
    exact ⟨name, _, List.mem_append_right before List.mem_cons_self, hnone⟩
  · rintro ⟨name, size, hmem, hnone⟩
    refine (fills_or_firstUnbound em ps).resolve_left ?_
    rintro ⟨u, hu⟩
    exact lookup_of_fills hu hmem hnone

end Emitter

/-! ## Code of a script -/

namespace Emission

variable {em em' : Emitter} {pos : Pos} {t u : Text}

/-- A string that is itself in quotes is read once more. -/
def IsQuoted (t : Text) : Prop := 2 ≤ t.length ∧ (t.head? = some 34 ∨ t.head? = some 96)

theorem outcome_get_bind {α : Type} (f : Emitter → Emission α) (em : Emitter) :
    (get >>= f).outcome em = (f em).outcome em := rfl

theorem outcome_code_of_ok (h : ¬ IsQuoted t)
    (hfill : Template.fill em.holeText (Template.pieces t) = .ok u) :
    (code pos t).outcome em = (.ok u, em) := by
  rw [IsQuoted] at h
  rw [code, stringText, if_neg h, pure_bind, outcome_get_bind, hfill]
  rfl

theorem outcome_code_of_error (h : ¬ IsQuoted t) {name : Text}
    (hfill : Template.fill em.holeText (Template.pieces t) = .error name) :
    (code pos t).outcome em = (.error ⟨.undefinedInAsm name, pos, []⟩, em) := by
  rw [IsQuoted] at h
  rw [code, stringText, if_neg h, pure_bind, outcome_get_bind, hfill]
  rfl

theorem outcome_code_eq_ok (h : ¬ IsQuoted t) : (code pos t).outcome em = (.ok u, em') ↔
    em' = em ∧ em.Fills (Template.pieces t) u := by
  rw [← Emitter.fill_eq_ok_iff]
  cases hfill : Template.fill em.holeText (Template.pieces t) with
  | ok c =>
    rw [outcome_code_of_ok h hfill]
    simp [eq_comm, and_comm]
  | error name =>
    rw [outcome_code_of_error h hfill]
    simp

theorem outcome_code_eq_error (h : ¬ IsQuoted t) {x : ScriptError} :
    (code pos t).outcome em = (.error x, em') ↔ em' = em ∧
      ∃ name, em.FirstUnbound (Template.pieces t) name ∧ x = ⟨.undefinedInAsm name, pos, []⟩ := by
  simp only [← Emitter.fill_eq_error_iff]
  cases hfill : Template.fill em.holeText (Template.pieces t) with
  | ok c =>
    rw [outcome_code_of_ok h hfill]
    simp
  | error name =>
    rw [outcome_code_of_error h hfill]
    simp [eq_comm, and_comm]

end Emission

/-- **Substitution.**  A template that is not in quotes is read in one way.  If it can be filled,
the result is the text of its pieces in turn; if it cannot, the error names the first hole whose
name is not bound.  It cannot be filled exactly if there is such a hole.  The state of the run stays
as it is. -/
theorem code_substitutes (em : Emitter) (pos : Pos) (t : Text) (h : ¬ Emission.IsQuoted t) :
    ∃ ps, (∀ qs, Template.Scans t qs ↔ qs = ps) ∧
      (∀ u em', (Emission.code pos t).outcome em = (.ok u, em') ↔ em' = em ∧ em.Fills ps u) ∧
      (∀ x em', (Emission.code pos t).outcome em = (.error x, em') ↔
        em' = em ∧ ∃ name, em.FirstUnbound ps name ∧ x = ⟨.undefinedInAsm name, pos, []⟩) ∧
      ((∃ x em', (Emission.code pos t).outcome em = (.error x, em')) ↔
        ∃ name size, Piece.hole name size ∈ ps ∧ em.lookup name = none) := by
  refine ⟨Template.pieces t, fun qs => Template.scans_iff,
    fun u em' => Emission.outcome_code_eq_ok h, fun x em' => Emission.outcome_code_eq_error h, ?_⟩
  rw [← Emitter.exists_firstUnbound_iff]
  simp [Emission.outcome_code_eq_error h]

/-- A constant whose name reads like a placeholder, and a register. -/
def braces : Emitter :=
  ⟨.new .bits64 true,
    [("a", .ofRegister "rbx" "int64" true), ("b", .ofConstant "\x7ba\x7d" "int64")], none⟩

/-- Placeholders beside texts that are nearly placeholders. -/
def nearMisses : Text := "mov \x7ba:4\x7d, \x7b\x7bb:2\x7d\x7d \x7ba:3\x7d \x7b9\x7d \x7ba"

theorem code_substitutes_nearMisses :
    ¬ Emission.IsQuoted nearMisses ∧ ∃ ps, Template.Scans nearMisses ps ∧
      braces.Fills ps "mov ebx, \x7b[\x7ba\x7d]\x7d \x7ba:3\x7d \x7b9\x7d \x7ba" := by
  have hbare : ¬ Emission.IsQuoted nearMisses := by rw [Emission.IsQuoted]; decide
  obtain ⟨ps, hscans, hok, -⟩ := code_substitutes braces ⟨0, 1, 1⟩ nearMisses hbare
  refine ⟨hbare, ps, (hscans ps).mpr rfl, ((hok _ braces).mp ?_).2⟩
  rfl

end Assembly.Script
