import StandardForm.Binary.Basic

/-!
# Bit patterns

In the 32- and 64-bit formats a pattern is the sign bit followed by the rung. The 80-bit
format writes the leading bit of the significand out, between exponent and fraction; it is
set exactly when the exponent is not zero. Every pattern with a rung above infinity is a NaN.
-/

namespace StandardForm.Binary

variable {f : FloatFormat}

/-- The number whose rung is `rung`, rungs beyond infinity being NaN. -/
def ofPattern (f : FloatFormat) (negative : Bool) (rung : Nat) : Binary f :=
  if h : rung < f.top + 1 then num negative ⟨rung, h⟩ else nan

/-- The number with a sign, a biased exponent and a significand with its leading bit. A
significand that lacks the leading bit although the exponent is not zero denotes nothing. -/
def ofFields (negative : Bool) (exponent significand : Nat) : Binary f :=
  if significand < f.binade then
    if exponent = 0 then ofPattern f negative significand else nan
  else ofPattern f negative (Nat.max exponent 1 * f.binade + (significand - f.binade))

/-- The biased exponent and the significand with its leading bit. -/
def fields (f : FloatFormat) (rung : Nat) : Nat × Nat :=
  let exponent := rung / f.binade
  (exponent, rung % f.binade + if exponent = 0 then 0 else f.binade)

end StandardForm.Binary
