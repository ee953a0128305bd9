import Assembly.Proofs.Listing.Escape
import Mathlib.Data.Nat.Digits.Lemmas

/-!
# Numbered listings

A number with fewer digits than the last one has spaces in front, and no line has a number with
more digits.  So all numbers are equally wide, and the text is what stands behind them.
-/

namespace Assembly

namespace Text

/-- The decimal digits of a positive number, the highest first. -/
def decimal (n : Nat) : Text := (Nat.digits 10 n).reverse.map fun d => (48 + d).toUInt8

theorem byte_digitChar_eq {d : Nat} (h : d < 10) : byte (Nat.digitChar d) = (48 + d).toUInt8 := by
  have hall : ∀ d < 10, byte (Nat.digitChar d) = (48 + d).toUInt8 := by decide
  exact hall d h

theorem ofNat_eq_decimal {n : Nat} (h : 0 < n) : ofNat n = decimal n := by
  induction n using Nat.strongRecOn with
  | ind n ih =>
    unfold ofNat
    by_cases hlt : n < 10
    · rw [Nat.toDigits_of_lt_base hlt, decimal, Nat.digits_of_lt 10 n h.ne' hlt, List.map_singleton,
        byte_digitChar_eq hlt]
      rfl
    · have hrest : ofNat (n / 10) = decimal (n / 10) := ih (n / 10) (by omega) (by omega)
      rw [Nat.toDigits_of_base_le (by omega) (by omega), List.map_append]
      show ofNat (n / 10) ++ [byte (Nat.digitChar (n % 10))] = decimal n
      rw [hrest, byte_digitChar_eq (by omega), decimal, decimal, Nat.digits_def' (by decide) h,
        List.reverse_cons, List.map_append]
      rfl

theorem length_decimal (n : Nat) : (decimal n).length = (Nat.digits 10 n).length := by
  simp [decimal]

theorem length_decimal_le {m n : Nat} (h : m ≤ n) : (decimal m).length ≤ (decimal n).length := by
  rw [length_decimal, length_decimal]
  exact Nat.le_length_digits_le 10 m n h

end Text

namespace Listing

open Text

/-- What stands in front of a line: its number in decimal, after spaces that fill it up to the
width, and a space. -/
def numberFront (width number : Nat) : Text :=
  List.replicate (width - (decimal number).length) 32 ++ decimal number ++ [32]

theorem length_numberFront {number last : Nat} (h : number ≤ last) :
    (numberFront (decimal last).length number).length = (decimal last).length + 1 := by
  have hle := length_decimal_le h
  rw [numberFront, List.length_append, List.length_append, List.length_replicate,
    Nat.sub_add_cancel hle]
  rfl

theorem numberedLine_false {count index : Nat} (h : index < count) (line : Text) :
    numberedLine false count (line, index) =
      numberFront (decimal count).length (index + 1) ++ line := by
  have hcount : 0 < count := by omega
  rw [numberedLine, Span.render_false, numberSpan, ofNat_eq_decimal hcount,
    ofNat_eq_decimal (Nat.succ_pos index)]
  rfl

/-- Without their fronts the lines are those of the text. -/
theorem drop_numberedLine {asm line : Text} {index : Nat} (h : (line, index) ∈ (lines asm).zipIdx) :
    (numberedLine false (lines asm).length (line, index)).drop
      ((decimal (lines asm).length).length + 1) = line := by
  have hindex : index < (lines asm).length := List.snd_lt_of_mem_zipIdx h
  rw [numberedLine_false hindex, ← length_numberFront hindex]
  exact List.drop_left

theorem drop_lines_numbered (asm : Text) :
    (lines (numbered false asm)).map (·.drop ((decimal (lines asm).length).length + 1)) =
      lines asm := by
  calc (lines (numbered false asm)).map (·.drop ((decimal (lines asm).length).length + 1))
      = (lines asm).zipIdx.map fun p => p.1 := by
        rw [lines_numbered, List.map_map]
        exact List.map_congr_left fun p hp => drop_numberedLine hp
    _ = lines asm := List.zipIdx_map_fst 0 (lines asm)

/-- **Numbers.**  A listing with numbers has the lines of the text, one more than the text has
newlines, each behind a front of the same width: one byte more than the number of lines has digits.
So the text is what is left when the fronts are cut off. -/
theorem numbered_aligned (asm : Text) (n w : Nat) (hn : n = asm.count 10 + 1)
    (hw : w = (Nat.digits 10 n).length) :
    (lines asm).length = n ∧ (lines (numbered false asm)).length = n ∧
      (∀ i line, (lines asm)[i]? = some line →
        (lines (numbered false asm))[i]? = some (numberFront w (i + 1) ++ line) ∧
          (numberFront w (i + 1)).length = w + 1) ∧
      unlines ((lines (numbered false asm)).map (·.drop (w + 1))) = asm := by
  have hlength : (lines asm).length = n := hn ▸ length_split 10 asm
  have hwidth : (decimal n).length = w := hw ▸ length_decimal n
  refine ⟨hlength, (length_lines_numbered false asm).trans hlength, ?_, ?_⟩
  · intro i line hline
    have hi : i < n := hlength ▸ (List.getElem?_eq_some_iff.mp hline).1
    constructor
    · rw [lines_numbered, List.getElem?_map, List.getElem?_zipIdx, hline, hlength, ← hwidth,
        ← numberedLine_false hi]
      simp
    · rw [← hwidth]
      exact length_numberFront hi
  · have hdrop := drop_lines_numbered asm
    rw [hlength, hwidth] at hdrop
    rw [hdrop, unlines_lines]

/-- Ten lines, so that the other numbers have to be filled up. -/
def tenLines : Text := "\n\n\n\n\n\n\n\n\nnop"

theorem numbered_aligned_tenLines :
    10 = tenLines.count 10 + 1 ∧ 2 = (Nat.digits 10 10).length ∧
      (lines tenLines)[8]? = some [] ∧ (lines tenLines)[9]? = some (ofString "nop") ∧
      (lines (numbered false tenLines))[8]? = some (ofString " 9 ") ∧
      (lines (numbered false tenLines))[9]? = some (ofString "10 nop") := by
  have hn : 10 = tenLines.count 10 + 1 := by decide
  have hw : 2 = (Nat.digits 10 10).length := by decide
  have heighth : (lines tenLines)[8]? = some [] := by decide
  have hlast : (lines tenLines)[9]? = some (ofString "nop") := by decide
  obtain ⟨-, -, hlines, -⟩ := numbered_aligned tenLines 10 2 hn hw
  refine ⟨hn, hw, heighth, hlast, ?_, ?_⟩
  · rw [(hlines 8 [] heighth).1]
    decide
  · rw [(hlines 9 "nop" hlast).1]
    decide

end Listing

end Assembly
