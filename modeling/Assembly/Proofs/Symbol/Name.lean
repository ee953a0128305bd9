import Assembly.Engine.Request
import Assembly.Proofs.Text.Decimal

/-!
# Names that the engine makes up

The engine names the constants that it stores on its own, and the routines of the runtime.
Constants carry a number: that of a literal, or that of a printed text.  `GeneratedName` are
these names as data, and `text_injective` says that two of them are never spelled the same,
so that the texts may be counted by counting the data.

A name is read back from its text by `read?`, which decides whether a text is such a name.
-/

namespace Assembly

namespace Text

theorem after?_append (front t : Text) : after? front (front ++ t) = some t := by
  unfold after?
  rw [if_pos (by simp), List.drop_left]

end Text

/-- A name that the engine makes up. -/
inductive GeneratedName
  | floatLiteral (n : Nat)
  | textLiteral (n : Nat)
  | printedText (n : Nat)
  | printBuffer
  | newline
  | floatBuffer
  | routine (b : Builtin)
deriving DecidableEq, Repr

namespace GeneratedName

def text : GeneratedName → Text
  | floatLiteral n => Emit.generatedName "float_lit" n
  | textLiteral n => Emit.generatedName "str" n
  | printedText n => Emit.generatedName "str_print" n
  | printBuffer => "print_buffer"
  | newline => "newline"
  | floatBuffer => "float_buf"
  | routine b => b.label

/-- The names without a number. -/
def unnumbered : List GeneratedName :=
  [printBuffer, newline, floatBuffer, routine .printInt, routine .printFloat]

/-- The name that a text spells, if it spells one.  The longer of two beginnings is tried
first. -/
def read? (t : Text) : Option GeneratedName :=
  match Text.after? "float_lit_" t, Text.after? "str_print_" t, Text.after? "str_" t with
  | some digits, _, _ => some (floatLiteral (Text.digitsValue digits))
  | none, some digits, _ => some (printedText (Text.digitsValue digits))
  | none, none, some digits => some (textLiteral (Text.digitsValue digits))
  | none, none, none => unnumbered.find? fun g => g.text = t

theorem read?_text (g : GeneratedName) : read? g.text = some g := by
  cases g with
  | floatLiteral n =>
    have h : (floatLiteral n).text = Text.ofString "float_lit_" ++ Text.ofNat n := rfl
    unfold read?
    rw [h, Text.after?_append]
    dsimp only
    rw [Text.digitsValue_ofNat]
  | printedText n =>
    have h : (printedText n).text = Text.ofString "str_print_" ++ Text.ofNat n := rfl
    have hfloat : Text.after? "float_lit_" (printedText n).text = none := rfl
    unfold read?
    rw [hfloat, h, Text.after?_append]
    dsimp only
    rw [Text.digitsValue_ofNat]
  | textLiteral n =>
    have h : (textLiteral n).text = Text.ofString "str_" ++ Text.ofNat n := rfl
    have hfloat : Text.after? "float_lit_" (textLiteral n).text = none := rfl
    have hprint : Text.after? "str_print_" (textLiteral n).text = none := by
      -- What follows would begin with a letter.
      refine if_neg fun hfront => ?_
      have hfront' : (Text.ofString "print_").isPrefixOf (Text.ofNat n) = true := hfront
      have hletter : 112 ∈ Text.ofNat n :=
        (List.isPrefixOf_iff_prefix.mp hfront').subset List.mem_cons_self
      cases Text.isDigit_of_mem_ofNat hletter
    unfold read?
    rw [hfloat, hprint, h, Text.after?_append]
    dsimp only
    rw [Text.digitsValue_ofNat]
  | printBuffer | newline | floatBuffer => rfl
  | routine b => cases b <;> rfl

theorem text_injective : Function.Injective text := by
  intro g g' h
  have hread : some g = some g' := by rw [← read?_text g, h, read?_text]
  exact Option.some.inj hread

end GeneratedName

/-- The text is a name that the engine might make up. -/
def IsGenerated (t : Text) : Prop := ∃ g : GeneratedName, g.text = t

theorem isGenerated_iff (t : Text) : (GeneratedName.read? t).map (·.text) = some t ↔ IsGenerated t := by
  constructor
  · intro h
    obtain ⟨g, -, hg⟩ := Option.map_eq_some_iff.mp h
    exact ⟨g, hg⟩
  · rintro ⟨g, rfl⟩
    rw [GeneratedName.read?_text]
    rfl

instance (t : Text) : Decidable (IsGenerated t) := decidable_of_iff _ (isGenerated_iff t)

end Assembly
