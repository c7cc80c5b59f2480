import StandardForm.Binary.Ladder
import StandardForm.Binary.Basic
import StandardForm.Decimal.Digits

/-!
# Scientific notation with a fixed number of places

The exact value is rounded to `places + 1` significant digits, a half going to the even
digit, and written with one digit before the point and at least two digits of exponent.
-/

namespace StandardForm.Decimal

def pointAfterFirst : List Char → String
  | [] => ""
  | [d] => String.ofList [d]
  | d :: ds => String.ofList (d :: '.' :: ds)

/-- `num / den` rounded to `places + 1` digits. A carry to the next power of ten drops the
zero that it gained. -/
def significant (places num den : Nat) : Digits :=
  let e := leadingExponent num den 3 (ceilExponent num den)
  let (n, d) := scaled num den (e - places)
  let digits := roundHalfEven n d
  if digits = Nat.pow 10 (places + 1) then ⟨Nat.pow 10 places, e - places + 1⟩
  else ⟨digits, e - places⟩

/-- A positive fraction in scientific notation. -/
def scientificFraction (places num den : Nat) : String :=
  let ds := significant places num den
  pointAfterFirst (Nat.toDigits 10 ds.digits) ++ exponentText (ds.exponent + places)

def scientificZero (places : Nat) : String :=
  pointAfterFirst (List.replicate (places + 1) '0') ++ exponentText 0

end StandardForm.Decimal

namespace StandardForm.Binary

variable {f : FloatFormat}

/-- A number in scientific notation with the given number of places. -/
def scientific (places : Nat) : Binary f → String
  | nan => "nan"
  | num s r =>
    let sign := if s then "-" else ""
    sign ++
      if r.val = f.top then "inf"
      else if r.val = 0 then Decimal.scientificZero places
      else Decimal.scientificFraction places (f.units r.val) f.one

end StandardForm.Binary
