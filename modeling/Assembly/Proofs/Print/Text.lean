import Assembly.Proofs.Code.DataList
import Assembly.Proofs.Engine.Part
import Assembly.Proofs.Frame.Footprint
import Assembly.Proofs.Symbol.Segment

/-!
# Stored texts

The engine stores a text as a list of data, to print it or to pass it to a function.  The list
is one printable line, and it is read as the text: `dataList_exact`.  With its terminator the
text takes up as many bytes as the system call is told to write.
-/

namespace Assembly

/-! ## The number of bytes -/

/-- The register for the number of bytes that are written. -/
def Target.countRegister : Target → Text
  | bits16 => "cx"
  | bits32 => "edx"
  | bits64 => "rdx"

/-- What lines of code put into the register for the number of bytes. -/
def Target.countOperands (t : Target) (ls : List Line) : List Operand :=
  ls.filterMap fun l =>
    match l with
    | .instr ⟨.mov, [.reg r, o]⟩ => if r = t.countRegister then some o else none
    | _ => none

namespace Target

variable (t : Target)

theorem countOperands_append (ls ls' : List Line) :
    t.countOperands (ls ++ ls') = t.countOperands ls ++ t.countOperands ls' :=
  List.filterMap_append

theorem countOperands_push (rs : List Text) :
    t.countOperands ((rs.map Instr.push).map .instr) = [] := by
  induction rs with
  | nil => rfl
  | cons r rs ih => exact ih

theorem countOperands_pop (rs : List Text) :
    t.countOperands ((rs.map Instr.pop).map .instr) = [] := by
  induction rs with
  | nil => rfl
  | cons r rs ih => exact ih

theorem countOperands_writeCall (label : Text) (size : Nat) :
    t.countOperands ((t.writeCall label size).map .instr) = [.num size] := by
  cases t <;> rfl

end Target

/-- Registers that are kept around the call do not change the number of bytes. -/
theorem Emit.countOperands_writeCode (e : Engine) (label : Text) (size : Nat) :
    e.target.countOperands ((writeCode e label size).map .instr) = [.num size] := by
  rw [writeCode, List.map_append, List.map_append, Target.countOperands_append,
    Target.countOperands_append, Target.countOperands_push, Target.countOperands_pop,
    Target.countOperands_writeCall]
  rfl

/-! ## Storage -/

/-- Of a counted constant and the code that uses it, the constant is stored. -/
theorem Engine.data_makeAll_counted (e : Engine) {count : Move}
    (hcount : count = .countLiteral ∨ count = .countPrint) (name : Text) (d : Datum)
    (is : List Instr) :
    (e.makeAll ([count, .define name, .store d] ++ is.map .instr)).data = e.data ++ [d] := by
  have hcode := congrArg Stock.data
    ((e.makeAll [count, .define name, .store d]).stock_makeAll_instrs is)
  have hstored := congrArg Stock.data (e.makeAll_stock [count, .define name, .store d])
  rw [makeAll_append]
  refine hcode.trans (hstored.trans ?_)
  rcases hcount with rfl | rfl <;> rfl

namespace Emit

theorem printString_stores (s : Text) (e : Engine) : ∃ (ms : List Move) (d : Datum) (u : Text),
    printString s e = (.ok (), ms) ∧ (e.makeAll ms).data = e.data ++ [d] ∧
    d.name = generatedName "str_print" e.printBuffers ∧ d.stored? = some u ∧ u = s ++ [10] ∧
    e.target.countOperands (ms.flatMap Move.lines) = [.num u.length] := by
  refine ⟨_, ⟨generatedName "str_print" e.printBuffers, .db, .bytes s 10⟩, _, printString_run s e,
    e.data_makeAll_counted (.inr rfl) _ _ _, rfl, Datum.stored?_db, rfl, ?_⟩
  rw [List.flatMap_append, Move.flatMap_lines_instrs, List.length_append]
  exact countOperands_writeCode e _ _

theorem stringLabel_stores (s : Text) (e : Engine) : ∃ (label : Text) (ms : List Move) (d : Datum),
    stringLabel s e = (.ok label, ms) ∧ (e.makeAll ms).data = e.data ++ [d] ∧ d.name = label ∧
    d.stored? = some (s ++ [0]) := by
  have hrun : stringLabel s e = (.ok (generatedName "str" e.literals), _) :=
    addLiteral_run "str" (fun _ => .db) (.bytes s 0) e
  exact ⟨_, _, _, hrun, e.data_makeAll_counted (.inl rfl) _ _ [], rfl, Datum.stored?_db⟩

end Emit

/-- **Lists of data.**  The list of a text is one line of printable characters, it is read as the
text and nothing else, and no other text has it.  Where a text is printed or passed by its label,
the bytes that are stored are its own and one terminator, and a printed text is written with the
number of these bytes. -/
theorem dataList_exact (s : Text) :
    (Text.lines (dataList s) = [dataList s] ∧ ∀ c ∈ dataList s, 32 ≤ c ∧ c ≤ 126) ∧
    (readItems? .item (dataList s)).map (·.flatMap DataItem.bytes) = some s ∧
    (∀ u, dataList u = dataList s → u = s) ∧
    ∀ e : Engine,
      (∃ (ms : List Move) (d : Datum) (u : Text),
        Emit.printString s e = (.ok (), ms) ∧ (e.makeAll ms).data = e.data ++ [d] ∧
        d.name = Emit.generatedName "str_print" e.printBuffers ∧ d.stored? = some u ∧ u = s ++ [10] ∧
        e.target.countOperands (ms.flatMap Move.lines) = [.num u.length]) ∧
      (∃ (label : Text) (ms : List Move) (d : Datum),
        Emit.stringLabel s e = (.ok label, ms) ∧ (e.makeAll ms).data = e.data ++ [d] ∧
        d.name = label ∧ d.stored? = some (s ++ [0])) :=
  ⟨⟨lines_dataList s, fun _ hc => printable_of_mem_dataList hc⟩, bytes_readItems?_dataList s,
    fun _ h => dataList_injective h,
    fun e => ⟨Emit.printString_stores s e, Emit.stringLabel_stores s e⟩⟩

/-- Commas, quotes and bytes that cannot be shown, in one text. -/
example : dataList [97, 44, 32, 34, 255, 92, 98] =
    Text.ofString "\"a, \", 34, 255, 92, \"b\"" := by
  decide

end Assembly
