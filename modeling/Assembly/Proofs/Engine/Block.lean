import Assembly.Engine.Emit
import Assembly.Proofs.Text.Blank

/-!
# Blocks of instructions

A block of text is emitted line by line.  Trimming it as a whole changes nothing that trimming its
lines does not change as well, so a block is emitted as the blocks above and below any of its
newlines are.
-/

namespace Assembly

open Text

namespace Engine

/-- Appends lines to the open function, or to the entry code when no function is open. -/
def addLines (e : Engine) (ls : List Line) : Engine :=
  match e.current with
  | some f => { e with current := some { f with lines := f.lines ++ ls } }
  | none => { e with text := e.text ++ ls }

theorem addLines_nil (e : Engine) : e.addLines [] = e := by
  rw [addLines]
  split
  next f hf => rw [List.append_nil, ← hf]
  next => rw [List.append_nil]

theorem addLines_append (e : Engine) (ls ms : List Line) :
    e.addLines (ls ++ ms) = (e.addLines ls).addLines ms := by
  cases hf : e.current <;> simp [addLines, hf]

theorem makeAll_raws (e : Engine) (ts : List Text) :
    e.makeAll (ts.map .raw) = e.addLines (ts.map .raw) := by
  induction ts generalizing e with
  | nil => exact e.addLines_nil.symm
  | cons t ts ih =>
    have hfirst : e.make (.raw t) = e.addLines [.raw t] := rfl
    rw [List.map_cons, makeAll_cons, ih, hfirst, ← addLines_append]
    rfl

end Engine

namespace Emit

/-- A text of one line that is not empty, with no blank character at either end. -/
structure IsBlockInstr (u : Text) : Prop where
  ne_nil : u ≠ []
  newline : 10 ∉ u
  front : ∀ code, isBlankCode code → ¬ Rune.encode code <+: u
  back : ∀ code, isBlankCode code → ¬ Rune.encode code <:+ u

theorem blockInstrs_eq (code : Text) : blockInstrs code = trimmedLines code :=
  trimmedLines_trim code

theorem isBlockInstr_of_mem {code u : Text} (h : u ∈ trimmedLines code) : IsBlockInstr u := by
  obtain ⟨hmem, hne⟩ := List.mem_filter.mp h
  obtain ⟨l, hl, rfl⟩ := List.mem_map.mp hmem
  exact
    { ne_nil := of_decide_eq_true hne
      newline := fun hc => newline_notMem_of_mem_lines hl (trim_subset l hc)
      front := fun c hc => not_isPrefix_trim (encode_mem_blanks hc) l
      back := fun c hc => not_isSuffix_trimRight (encode_mem_blanks hc) _ }

theorem run_block (code : Text) (e : Engine) :
    (block code).run e =
      (.ok (), e.addLines ((trimmedLines code).map fun u => .raw (List.replicate 4 32 ++ u))) := by
  show (Except.ok (), e.makeAll (((blockInstrs code).map indented).map .raw)) = _
  rw [Engine.makeAll_raws, blockInstrs_eq, List.map_map]
  rfl

/-- **Blocks.**  A block with a newline is emitted as what is above the newline and then what is
below it.  The lines that a block adds to the code are the lines of its text that are not blank,
each with four spaces in front, and without the blank characters around it. -/
theorem block_homomorphic (a b : Text) (e : Engine) :
    (block (a ++ 10 :: b)).run e = (block b).run ((block a).run e).2 ∧
      ∀ code, (∀ u ∈ trimmedLines code, IsBlockInstr u) ∧
        (block code).run e = (.ok (),
          e.addLines ((trimmedLines code).map fun u => .raw (List.replicate 4 32 ++ u))) := by
  refine ⟨?_, fun code => ⟨fun u hu => isBlockInstr_of_mem hu, run_block code e⟩⟩
  rw [run_block, run_block, run_block, trimmedLines_append_newline, List.map_append,
    Engine.addLines_append]

end Emit

end Assembly
