import Assembly.Proofs.Code.DataList
import Assembly.Proofs.Engine.Part
import Assembly.Proofs.Print.Text
import Assembly.Proofs.Script.Command
import Assembly.Proofs.Script.Complete

/-!
# Texts on their way from a script to the program

A string is read from its quotes when a script is parsed, and once more when the script is run,
if it then still looks quoted.  So a text reaches the program unchanged exactly if it does not
look quoted itself.
-/

namespace Assembly.Script

/-- The text would itself be read as a quoted one. -/
def looksQuoted (t : Text) : Bool := 2 ≤ t.length && (t.head? == some 34 || t.head? == some 96)

/-- The text that a string of a script stands for in the program. -/
def literal? (t : Text) : Option Text := if looksQuoted t then Text.unquote? t else some t

theorem literal?_eq_self_iff {t : Text} : literal? t = some t ↔ ¬looksQuoted t := by
  rw [literal?]
  split
  next hquoted =>
    refine ⟨fun h => ?_, fun h => absurd hquoted h⟩
    exact absurd (Text.countP_unquote? h) (Nat.lt_irrefl _)
  next hquoted => exact ⟨fun _ => hquoted, fun _ => rfl⟩

/-- A text that is read once more loses marks. -/
theorem eq_of_literal? {t u : Text} (h : literal? t = some u)
    (hcount : u.countP Text.isMark = t.countP Text.isMark) : u = t := by
  rw [literal?] at h
  split at h
  next =>
    have hlt := Text.countP_unquote? h
    omega
  next => exact (Option.some.inj h).symm

namespace Emission

variable {em em' : Emitter} {pos : Pos}

theorem stringText_yields_iff {t u : Text} :
    (stringText pos t).Yields em u em' ↔ literal? t = some u ∧ em' = em := by
  rw [stringText, literal?]
  by_cases hquoted : looksQuoted t
  · have hcond : 2 ≤ t.length ∧ (t.head? = some 34 ∨ t.head? = some 96) := by
      simpa [looksQuoted] using hquoted
    rw [if_pos hcond, if_pos hquoted]
    cases Text.unquote? t with
    | none => simp
    | some v => simp [eq_comm]
  · have hcond : ¬(2 ≤ t.length ∧ (t.head? = some 34 ∨ t.head? = some 96)) := by
      simpa [looksQuoted] using hquoted
    rw [if_neg hcond, if_neg hquoted]
    simp [eq_comm]

theorem string_yields_iff {t : Text} {v : Value} :
    (term ⟨pos, .string t⟩).Yields em v em' ↔ ∃ u, literal? t = some u ∧ v = .ofText u ∧ em' = em := by
  show (stringText pos t >>= fun u => pure (.ofText u)).Yields em v em' ↔ _
  rw [yields_bind]
  simp only [stringText_yields_iff, yields_pure]
  constructor
  · rintro ⟨u, em₁, ⟨hu, rfl⟩, hv, hem⟩
    exact ⟨u, hu, hv, hem⟩
  · rintro ⟨u, hu, hv, hem⟩
    exact ⟨u, em, ⟨hu, rfl⟩, hv, hem⟩

end Emission

/-! ## Scripts of one statement -/

theorem emit_stmt_iff {s : Script} {x : Stmt} (hs : s.items = [.stmt x]) {e e' : Engine} :
    s.emit e = (.ok (), e') ↔ ∃ em, (Emission.stmt x).Yields (.new e) () em ∧ em.engine = e' := by
  have hrun : (s.items.forM Emission.item).run.run (.new e) =
      (Emission.stmt x >>= fun _ => pure ()).outcome (.new e) := by
    rw [hs]
    rfl
  have hemit : s.emit e = (((s.items.forM Emission.item).run.run (.new e)).1.mapError fun err =>
      { err with file := s.file }, ((s.items.forM Emission.item).run.run (.new e)).2.engine) := rfl
  rw [hemit, hrun, bind_pure_unit]
  unfold Emission.Yields
  rcases (Emission.stmt x).outcome (.new e) with ⟨err | u, em⟩
  · constructor
    · intro h
      cases h
    · rintro ⟨_, h, -⟩
      cases h
  · constructor
    · intro h
      exact ⟨em, rfl, congrArg Prod.snd h⟩
    · rintro ⟨_, h, rfl⟩
      cases h
      rfl

/-- The script that prints a text. -/
def printing (t : Text) : Script :=
  ⟨.nowhere, none, [.stmt ⟨.nowhere, .print ⟨.nowhere, .string t⟩⟩], []⟩

/-- The script that stores a text under a name. -/
def storing (name : Text) (type : Option Text) (t : Text) : Script :=
  ⟨.nowhere, none, [.stmt ⟨.nowhere, .const name type ⟨.nowhere, .string t⟩⟩], []⟩

theorem items_of_bare {s : Script} {i : Item} (h : s.bare.items = [i]) : ∃ j, s.items = [j] ∧ j.bare = i :=
  List.map_eq_singleton_iff.mp h

theorem items_printing {s : Script} {t : Text} (h : s.bare = (printing t).bare) :
    ∃ p q, s.items = [.stmt ⟨p, .print ⟨q, .string t⟩⟩] := by
  obtain ⟨j, hs, hj⟩ := items_of_bare (congrArg Script.items h)
  rw [hs]
  rcases j with f | ⟨p, form⟩
  · cases hj
  · cases form with
    | print value =>
      obtain ⟨q, form⟩ := value
      cases hj
      exact ⟨p, q, rfl⟩
    | _ => cases hj

theorem items_storing {s : Script} {name : Text} {type : Option Text} {t : Text}
    (h : s.bare = (storing name type t).bare) :
    ∃ p q, s.items = [.stmt ⟨p, .const name type ⟨q, .string t⟩⟩] := by
  obtain ⟨j, hs, hj⟩ := items_of_bare (congrArg Script.items h)
  rw [hs]
  rcases j with f | ⟨p, form⟩
  · cases hj
  · cases form with
    | const n ty value =>
      obtain ⟨q, form⟩ := value
      cases hj
      exact ⟨p, q, rfl⟩
    | _ => cases hj

/-! ## Printed texts -/

end Assembly.Script

namespace Assembly

/-- The bytes stored under a name, by the line of that name. -/
def Engine.stored? (e : Engine) (name : Text) : Option Text :=
  (e.data.find? (·.name = name)).bind Datum.stored?

namespace Script

open Emission

section

variable {t : Text} {p q : Pos} {target : Target} {strict : Bool}

theorem printString_new (target : Target) (strict : Bool) (u : Text) :
    ∃ ms, Emit.printString u (.new target strict) = (.ok (), ms) ∧
    ((Engine.new target strict).makeAll ms).data = [⟨"str_print_0", .db, .bytes u 10⟩] ∧
    target.countOperands ((Engine.new target strict).makeAll ms).text = [.num (u.length + 1)] := by
  have hname : Emit.generatedName "str_print" (Engine.new target strict).printBuffers =
      "str_print_0" := by
    show Emit.generatedName "str_print" 0 = "str_print_0"
    rfl
  rw [Emit.printString_run, hname]
  refine ⟨_, rfl, ?_⟩
  cases target <;> exact ⟨rfl, rfl⟩

theorem print_yields_iff {em : Emitter} :
    (stmt ⟨p, .print ⟨q, .string t⟩⟩).Yields (.new (.new target strict)) () em ↔
      ∃ u ms, literal? t = some u ∧ Emit.printString u (.new target strict) = (.ok (), ms) ∧
        em = .new ((Engine.new target strict).makeAll ms) := by
  show (term ⟨q, .string t⟩ >>= fun v => engine p (Emit.print v)).Yields _ () em ↔ _
  simp only [yields_bind, string_yields_iff, yields_engine]
  constructor
  · rintro ⟨_, _, ⟨u, hu, rfl, rfl⟩, ms, hgrants, rfl⟩
    exact ⟨u, ms, hu, hgrants, rfl⟩
  · rintro ⟨u, ms, hu, hgrants, rfl⟩
    exact ⟨_, _, ⟨u, hu, rfl, rfl⟩, ms, hgrants, rfl⟩

/-! ## Stored texts -/

/-- The type of a text that is declared with a type, which may be empty. -/
def constType (type : Text) : Text := if type.isEmpty then "str" else type

/-- A type whose data are stored by bytes has a size rule. -/
theorem knows_of_directive {type : Text} (h : target.directive type = .db) : target.knows type := by
  by_contra hunknown
  have hnone : target.knownSize? type = none := by simpa [Target.knows] using hunknown
  have hstr : (type == Text.ofString "str") = false := by
    rw [beq_eq_false_iff_ne]
    rintro rfl
    cases target <;> cases hnone
  rw [Target.directive.eq_def, hstr, hnone] at h
  cases target <;> cases h

/-- A text declared on a new engine is stored, unless its type is refused. -/
theorem declareConst_new (target : Target) (strict : Bool) (name type u : Text) : ∃ r ms,
    Emit.declareConst name (.ofText u) type (.new target strict) = (r, ms) ∧
    (target.knows (constType type) → ∃ v, r = .ok v) ∧
    (∀ v, r = .ok v → ((Engine.new target strict).makeAll ms).data =
      [⟨name, target.directive (constType type), .bytes u 0⟩]) := by
  have hrun : Emit.declareConst name (.ofText u) type (.new target strict) =
      (do
        Emit.checkType (constType type)
        Emit.claimSymbol name
        Emit.move (.store ⟨name, target.directive (constType type), .bytes u 0⟩)
        pure (Value.ofConstant name (constType type)) : Emit Value) (.new target strict) := by
    rfl
  rw [hrun, Emit.bind_apply, Emit.checkType_run]
  by_cases hknown : (Engine.new target strict).target.knows (constType type)
  · rw [if_pos hknown]
    exact ⟨_, _, rfl, fun _ => ⟨_, rfl⟩, fun _ _ => rfl⟩
  rw [if_neg hknown]
  by_cases hstrict : (Engine.new target strict).strict
  · rw [if_pos hstrict]
    exact ⟨_, _, rfl, fun h => absurd h hknown, fun _ h => by cases h⟩
  · rw [if_neg hstrict]
    exact ⟨_, _, rfl, fun h => absurd h hknown, fun _ _ => rfl⟩

theorem const_yields_iff {name : Text} {type : Option Text} {em : Emitter} :
    (stmt ⟨p, .const name type ⟨q, .string t⟩⟩).Yields (.new (.new target strict)) () em ↔
      ∃ u v ms, literal? t = some u ∧
        Emit.declareConst name (.ofText u) (type.getD []) (.new target strict) = (.ok v, ms) ∧
        em = (Emitter.new ((Engine.new target strict).makeAll ms)).bind name v := by
  show (term ⟨q, .string t⟩ >>= fun lit =>
    engine p (Emit.declareConst name lit (type.getD [])) >>= fun v => bind name v).Yields _ () em ↔ _
  simp only [yields_bind, string_yields_iff, yields_engine, Emission.bind, yields_modify]
  constructor
  · rintro ⟨_, _, ⟨u, hu, rfl, rfl⟩, v, _, ⟨ms, hgrants, rfl⟩, rfl⟩
    exact ⟨u, v, ms, hu, hgrants, rfl⟩
  · rintro ⟨u, v, ms, hu, hgrants, rfl⟩
    exact ⟨_, _, ⟨u, hu, rfl, rfl⟩, v, _, ⟨ms, hgrants, rfl⟩, rfl⟩

end

/-- The text is accepted as a script, and the script takes one engine to the other without a
failure. -/
def Leads (source : Text) (e e' : Engine) : Prop := ∃ s, parse source = .ok s ∧ s.emit e = (.ok (), e')

section

variable {target : Target} {strict : Bool} {e : Engine}

theorem parse_printing (t : Text) : ∃ s, parse (printing t).text = .ok s ∧ s.bare = (printing t).bare :=
  parse_text_of_isClear rfl rfl

theorem parse_storing {name : Text} (hname : isIdentifier name) {type : Option Text}
    (htype : type.all isIdentifier) (t : Text) :
    ∃ s, parse (storing name type t).text = .ok s ∧ s.bare = (storing name type t).bare := by
  refine parse_text_of_isClear ?_ rfl
  simp [isWritable, storing, Item.isWritable, Stmt.isWritable, Term.isWritable, hname, htype, topFault?]

theorem leads_printing_iff {t : Text} : Leads (printing t).text (.new target strict) e ↔
    ∃ u ms, literal? t = some u ∧ Emit.printString u (.new target strict) = (.ok (), ms) ∧
      e = (Engine.new target strict).makeAll ms := by
  obtain ⟨s, hparse, hbare⟩ := parse_printing t
  obtain ⟨p, q, hitems⟩ := items_printing hbare
  constructor
  · rintro ⟨s', hparse', hemit⟩
    cases hparse.symm.trans hparse'
    obtain ⟨em, hyields, rfl⟩ := (emit_stmt_iff hitems).mp hemit
    obtain ⟨u, ms, hu, hprint, rfl⟩ := print_yields_iff.mp hyields
    exact ⟨u, ms, hu, hprint, rfl⟩
  · rintro ⟨u, ms, hu, hprint, rfl⟩
    exact ⟨s, hparse, (emit_stmt_iff hitems).mpr ⟨_, print_yields_iff.mpr ⟨u, ms, hu, hprint, rfl⟩, rfl⟩⟩

theorem leads_storing_iff {name t : Text} (hname : isIdentifier name) {type : Option Text}
    (htype : type.all isIdentifier) : Leads (storing name type t).text (.new target strict) e ↔
    ∃ u v ms, literal? t = some u ∧
      Emit.declareConst name (.ofText u) (type.getD []) (.new target strict) = (.ok v, ms) ∧
      e = (Engine.new target strict).makeAll ms := by
  obtain ⟨s, hparse, hbare⟩ := parse_storing hname htype t
  obtain ⟨p, q, hitems⟩ := items_storing hbare
  constructor
  · rintro ⟨s', hparse', hemit⟩
    cases hparse.symm.trans hparse'
    obtain ⟨em, hyields, rfl⟩ := (emit_stmt_iff hitems).mp hemit
    obtain ⟨u, v, ms, hu, hconst, rfl⟩ := const_yields_iff.mp hyields
    exact ⟨u, v, ms, hu, hconst, rfl⟩
  · rintro ⟨u, v, ms, hu, hconst, rfl⟩
    exact ⟨s, hparse, (emit_stmt_iff hitems).mpr ⟨_, const_yields_iff.mpr ⟨u, v, ms, hu, hconst, rfl⟩, rfl⟩⟩

end

theorem stored?_of_data {e : Engine} {d : Datum} (h : e.data = [d]) : e.stored? d.name = d.stored? := by
  simp [Engine.stored?, h]

/-- What a string stands for is stored as the string only if nothing was read once more. -/
theorem stored?_literal_iff {t u name : Text} {d : Directive} {b : UInt8} (hu : literal? t = some u) :
    (⟨name, d, .bytes u b⟩ : Datum).stored? = some (t ++ [b]) ↔ ¬looksQuoted t ∧ d = .db := by
  constructor
  · intro h
    have hcount := Datum.countP_stored? (p := Text.isMark) rfl h
    rw [List.countP_append, List.countP_append] at hcount
    obtain rfl := eq_of_literal? hu (by omega)
    exact ⟨literal?_eq_self_iff.mp hu, Datum.db_of_stored? h⟩
  · rintro ⟨hplain, rfl⟩
    cases hu.symm.trans (literal?_eq_self_iff.mpr hplain)
    exact Datum.stored?_db

theorem constType_getD {type : Option Text} (h : type.all isIdentifier) :
    constType (type.getD []) = type.getD "str" := by
  cases type with
  | none => rfl
  | some ty =>
    have hne : ty.isEmpty = false := by
      rw [List.isEmpty_eq_false_iff]
      rintro rfl
      have hnil : isIdentifier [] = false := by decide
      rw [Option.all_some, hnil] at h
      cases h
    simp [constType, hne]

theorem printing_kept_iff (target : Target) (strict : Bool) (t : Text) :
    (∃ e, Leads (printing t).text (.new target strict) e ∧ e.stored? "str_print_0" = some (t ++ [10]) ∧
      target.countOperands e.text = [.num (t.length + 1)]) ↔ ¬looksQuoted t := by
  constructor
  · rintro ⟨e, hleads, hstored, -⟩
    obtain ⟨u, ms, hu, hprint, rfl⟩ := leads_printing_iff.mp hleads
    obtain ⟨ms', hprint', hdata, -⟩ := printString_new target strict u
    cases hprint.symm.trans hprint'
    rw [stored?_of_data hdata] at hstored
    exact ((stored?_literal_iff hu).mp hstored).1
  · intro hplain
    have hu := literal?_eq_self_iff.mpr hplain
    obtain ⟨ms, hprint, hdata, hcount⟩ := printString_new target strict t
    refine ⟨_, leads_printing_iff.mpr ⟨t, ms, hu, hprint, rfl⟩, ?_, hcount⟩
    rw [stored?_of_data hdata]
    exact (stored?_literal_iff hu).mpr ⟨hplain, rfl⟩

theorem storing_kept_iff (target : Target) (strict : Bool) (t : Text) {name : Text}
    (hname : isIdentifier name) {type : Option Text} (htype : type.all isIdentifier) :
    (∃ e, Leads (storing name type t).text (.new target strict) e ∧ e.stored? name = some (t ++ [0])) ↔
      ¬looksQuoted t ∧ target.directive (type.getD "str") = .db := by
  rw [← constType_getD htype]
  constructor
  · rintro ⟨e, hleads, hstored⟩
    obtain ⟨u, v, ms, hu, hconst, rfl⟩ := (leads_storing_iff hname htype).mp hleads
    obtain ⟨r, ms', hconst', -, hdata⟩ := declareConst_new target strict name (type.getD []) u
    cases hconst.symm.trans hconst'
    rw [stored?_of_data (hdata v rfl)] at hstored
    exact (stored?_literal_iff hu).mp hstored
  · rintro ⟨hplain, hdirective⟩
    have hu := literal?_eq_self_iff.mpr hplain
    obtain ⟨r, ms, hconst, hknown, hdata⟩ := declareConst_new target strict name (type.getD []) t
    obtain ⟨v, rfl⟩ := hknown (knows_of_directive hdirective)
    refine ⟨_, (leads_storing_iff hname htype).mpr ⟨t, v, ms, hu, hconst, rfl⟩, ?_⟩
    rw [stored?_of_data (hdata v rfl)]
    exact (stored?_literal_iff hu).mpr ⟨hplain, hdirective⟩

/-- **Literals.**  The scripts that print a text and that declare a constant with it are accepted
for every text.  The program stores the text and its terminator as they are, and counts their
bytes, exactly if the text does not itself look quoted; a constant has to be of a type that is
stored by bytes, too. -/
theorem literal_kept_iff (target : Target) (strict : Bool) (t name : Text) (hname : isIdentifier name)
    (type : Option Text) (htype : type.all isIdentifier) :
    (∃ s, parse (printing t).text = .ok s ∧ s.bare = (printing t).bare) ∧
    (∃ s, parse (storing name type t).text = .ok s ∧ s.bare = (storing name type t).bare) ∧
    ((∃ e, Leads (printing t).text (.new target strict) e ∧
        e.stored? "str_print_0" = some (t ++ [10]) ∧
        target.countOperands e.text = [.num (t.length + 1)]) ↔ ¬looksQuoted t) ∧
    ((∃ e, Leads (storing name type t).text (.new target strict) e ∧
        e.stored? name = some (t ++ [0])) ↔
      ¬looksQuoted t ∧ target.directive (type.getD "str") = .db) :=
  ⟨parse_printing t, parse_storing hname htype t, printing_kept_iff target strict t,
    storing_kept_iff target strict t hname htype⟩

/-- A text with a byte that is no character is printed as it is; a text between quotes is not. -/
theorem literal_kept_iff_quoted :
    (∃ e, Leads (printing [104, 105, 255]).text (.new .bits64 true) e ∧
      e.stored? "str_print_0" = some [104, 105, 255, 10] ∧
      Target.bits64.countOperands e.text = [.num 4]) ∧
    ¬∃ e, Leads (storing "k" none [34, 97, 34]).text (.new .bits32 false) e ∧
      e.stored? "k" = some [34, 97, 34, 0] :=
  ⟨(literal_kept_iff .bits64 true [104, 105, 255] "k" (by decide) none rfl).2.2.1.mpr (by decide),
    fun h => ((literal_kept_iff .bits32 false [34, 97, 34] "k" (by decide) none rfl).2.2.2.mp h).1
      (by decide)⟩

end Script

end Assembly
