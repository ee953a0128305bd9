import Assembly.Script.Read

/-!
# Accepted scripts

A text is accepted if it has tokens, the grammar reads all of them, the width is that of a
machine, and no local or return stands outside of functions.  `parse_eq_ok_iff` and
`readItems_eq_ok_iff` say so, with what is read.
-/

namespace Assembly.Script

/-- Reading items succeeds if the grammar leaves nothing over and finds an item or a width. -/
theorem readItems_eq_ok_iff {ts : List Token} {eof : Token} {bits : Nat} {items : List Item} :
    readItems ts eof = .ok (bits, items) ↔
      ∃ width c, Grammar.script (.start ts eof) = (.ok (width, items), c) ∧
        (width = none → items ≠ []) ∧ widthValue width = .ok bits ∧ c.rest = [] := by
  rw [readItems]
  constructor
  · intro h
    split at h
    · cases h
    · cases h
    · cases h
    case h_4 width read c hne hrun =>
      cases hw : widthValue width with
      | error f =>
        rw [hw] at h
        cases h
      | ok n =>
        rw [hw] at h
        have hrest : (if c.rest.isEmpty then pure (n, read) else throw (.unexpected c.deepest) :
            Except ScriptFault (Nat × List Item)) = .ok (bits, items) := h
        split at hrest
        case isTrue hempty =>
          cases hrest
          refine ⟨width, c, hrun, ?_, hw, List.isEmpty_iff.mp hempty⟩
          rintro rfl rfl
          exact hne rfl rfl
        case isFalse => cases hrest
  · rintro ⟨width, c, hrun, hne, hw, hrest⟩
    rw [hrun]
    have hlast : (do
        let bits ← widthValue width
        if c.rest.isEmpty then return (bits, items) else throw (.unexpected c.deepest) :
          Except ScriptFault (Nat × List Item)) = .ok (bits, items) := by
      rw [hw, hrest]
      rfl
    split
    case h_1 heq => cases heq
    case h_2 heq => cases heq
    case h_3 heq =>
      cases heq
      exact absurd rfl (hne rfl)
    case h_4 heq =>
      cases heq
      exact hlast

/-- A step whose failure is passed on in other words, and what follows it. -/
theorem mapError_bind_eq_ok {ε ε' α β : Type} {x : Except ε α} {words : ε → ε'}
    {k : α → Except ε' β} {b : β} :
    (x.mapError words >>= k) = .ok b ↔ ∃ a, x = .ok a ∧ k a = .ok b := by
  cases x with
  | error e =>
    constructor
    · intro h
      cases h
    · rintro ⟨a, ha, -⟩
      cases ha
  | ok a =>
    constructor
    · intro h
      exact ⟨a, rfl, h⟩
    · rintro ⟨_, ha, h⟩
      cases ha
      exact h

theorem findSome?_refusal?_eq_none_iff {is : List Item} :
    is.findSome? refusal? = none ↔ ∀ i ∈ is, topFault? i = none := by
  simp only [List.findSome?_eq_none_iff, refusal?, Option.map_eq_none_iff]

/-- What an accepted text is read as. -/
theorem parse_eq_ok_iff {source : Text} {s : Script} :
    parse source = .ok s ↔
      ∃ ts eof bits width, tokens source = .ok (ts, eof) ∧ readItems ts eof = .ok (bits, s.items) ∧
        machine? bits = .ok width ∧ (∀ i ∈ s.items, topFault? i = none) ∧
        s = ⟨(Cursor.start ts eof).next.pos, width, s.items, []⟩ := by
  rw [parse]
  simp only [mapError_bind_eq_ok]
  constructor
  · rintro ⟨⟨ts, eof⟩, htokens, ⟨bits, items⟩, hitems, width, hwidth, hlast⟩
    split at hlast
    case h_1 => cases hlast
    case h_2 htop =>
      cases hlast
      exact ⟨ts, eof, bits, width, htokens, hitems, hwidth,
        findSome?_refusal?_eq_none_iff.mp htop, rfl⟩
  · rintro ⟨ts, eof, bits, width, htokens, hitems, hwidth, htop, hs⟩
    refine ⟨(ts, eof), htokens, (bits, s.items), hitems, width, hwidth, ?_⟩
    dsimp only
    rw [findSome?_refusal?_eq_none_iff.mpr htop]
    exact congrArg Except.ok hs.symm

end Assembly.Script
