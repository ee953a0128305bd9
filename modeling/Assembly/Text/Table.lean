import Assembly.Text

/-!
# Tables of code points

A class of characters is an array of ranges in increasing order that do not touch.
Membership is decided by halving the array; the ranges from `lo` up to `hi` are those not
yet ruled out.
-/

namespace Assembly.Text

/-- Whether the code point lies in one of the ranges with index at least `lo` and less
than `hi`.  `fuel` bounds the number of halvings. -/
def inRangesBetween (ranges : Array (Nat × Nat)) (code : Nat) : Nat → Nat → Nat → Bool
  | 0, _, _ => false
  | fuel + 1, lo, hi =>
    let mid := (lo + hi) / 2
    match ranges[mid]? with
    | none => false
    | some (least, greatest) =>
      if hi ≤ lo then false
      else if code < least then inRangesBetween ranges code fuel lo mid
      else if greatest < code then inRangesBetween ranges code fuel (mid + 1) hi
      else true

/-- Whether the code point lies in one of the ranges. -/
def inRanges (ranges : Array (Nat × Nat)) (code : Nat) : Bool :=
  inRangesBetween ranges code (ranges.size.log2 + 2) 0 ranges.size

end Assembly.Text
