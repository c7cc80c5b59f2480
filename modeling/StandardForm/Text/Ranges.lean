/-!
# Tables of code points

A table lists ranges of code points in increasing order, each by its first and its last one.
Membership is found by bisection.
-/

namespace StandardForm.Text

/-- Membership in one of the ranges with indices from `low` up to `low + count`, by bisection. -/
def inRanges (ranges : Array (Nat × Nat)) (code : Nat) : (bits low count : Nat) → Bool
  | 0, _, _ => false
  | bits + 1, low, count =>
    if count = 0 then false
    else
      let middle := low + count / 2
      let (first, last) := ranges.getD middle (1, 0)
      if code < first then inRanges ranges code bits low (count / 2)
      else if last < code then
        inRanges ranges code bits (middle + 1) (count - count / 2 - 1)
      else true

def inTable (ranges : Array (Nat × Nat)) (c : Char) : Bool :=
  inRanges ranges c.toNat (ranges.size.log2 + 1) 0 ranges.size

end StandardForm.Text
