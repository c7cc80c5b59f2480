import StandardForm.Binary.Conversion
import StandardForm.Decimal.Digits

/-!
# The shortest numeral that reads back

The reals that round to a rung form an interval that reaches halfway to both neighbours and
contains its ends when the rung is even. Multiples of a power of ten are looked for in it,
from large powers to small; the first power with a hit has the fewest digits, and the
multiple nearest to the exact value is taken, the even one of two equally near.
-/

namespace StandardForm.Decimal

/-- An interval of positive reals around a value, over one denominator. -/
structure Interval where
  low : Nat
  value : Nat
  high : Nat
  den : Nat
  closed : Bool

namespace Interval

/-- Whether `d / unit` times the denominator lies in the interval `[low, high]`. -/
def holds (closed : Bool) (low high x : Nat) : Bool :=
  if closed then low ≤ x && x ≤ high else low < x && x < high

/-- The multiple of `10 ^ e` nearest to the value, if one of its two neighbours among them
lies in the interval. -/
def multipleAt? (i : Interval) (e : Int) : Option Nat :=
  let (low, den) := scaled i.low i.den e
  let value := (scaled i.value i.den e).1
  let high := (scaled i.high i.den e).1
  let below := value / den
  let inside (d : Nat) : Bool := holds i.closed low high (d * den)
  let nearest := roundHalfEven value den
  if inside nearest then some nearest
  else if inside below then some below
  else if inside (below + 1) then some (below + 1)
  else none

def shortestFrom (i : Interval) : (steps : Nat) → (e : Int) → Digits
  | 0, e => ⟨i.value / i.den, e⟩
  | steps + 1, e =>
    match i.multipleAt? e with
    | some d => ⟨d, e⟩
    | none => shortestFrom i steps (e - 1)

/-- The multiple of `10 ^ e` that stands for the value: a hit if there is one, else the
nearest. -/
def roundedAt (i : Interval) (e : Int) : Nat :=
  (i.multipleAt? e).getD (let (value, den) := scaled i.value i.den e; roundHalfEven value den)

/-- The first hit from `10 ^ e` downwards, `10 ^ finest` being the last power that is tried. -/
def shortestDownTo (i : Interval) (finest : Int) : (steps : Nat) → (e : Int) → Digits
  | 0, e => ⟨i.roundedAt e, e⟩
  | steps + 1, e =>
    if e ≤ finest then ⟨i.roundedAt e, e⟩
    else
      match i.multipleAt? e with
      | some d => ⟨d, e⟩
      | none => shortestDownTo i finest steps (e - 1)

end Interval

/-- A numeral without a power of ten. It shows a digit on both sides of the point. -/
def Parts.positionalText (p : Parts) : String :=
  p.whole ++ "." ++ if p.fraction = "" then "0" else p.fraction

/-- A numeral with a power of ten. Its point is left out where no digit follows it. -/
def Parts.scientificText (p : Parts) : String :=
  p.whole ++ (if p.fraction = "" then "" else "." ++ p.fraction) ++ exponentText p.power

end StandardForm.Decimal

namespace StandardForm.Binary

variable {f : FloatFormat}

/-- The reals that round to a finite rung above zero. -/
def roundingInterval (f : FloatFormat) (rung : Nat) : Decimal.Interval where
  low := f.midpoint rung
  value := 2 * f.units rung
  high := f.midpoint (rung + 1)
  den := 2 * f.one
  closed := rung % 2 == 0

/-- The shortest digits of a finite rung above zero. A number of `precision` bits needs fewer
decimal digits than it has bits. -/
def shortestDigits (f : FloatFormat) (rung : Nat) : Decimal.Digits :=
  let i := roundingInterval f rung
  i.shortestFrom f.precision (Decimal.ceilExponent i.value i.den)

/-- Numbers below this power of ten are written without one. -/
def positionalPower : FloatFormat → Nat
  | .single => 6
  | .double | .extended => 16

/-- The least magnitude that is written without a power of ten. -/
def leastPositional : Binary .extended := .ofDecimal .extended false 1 (-4)

/-- Whether a finite rung above zero is written without a power of ten. -/
def isPositional (f : FloatFormat) (rung : Nat) : Bool :=
  decide (f.units rung < Nat.pow 10 (positionalPower f) * f.one)
    && leastPositional.le ((ofRung false rung : Binary f).cast .extended)

/-- The shortest numeral that reads back as this number. -/
def shortest : Binary f → String
  | nan => "nan"
  | num s r =>
    let sign := if s then "-" else ""
    sign ++
      if r.val = f.top then "inf"
      else if r.val = 0 then "0.0"
      else
        let ds := shortestDigits f r.val
        if isPositional f r.val then ds.positional.positionalText
        else ds.scientific.scientificText

end StandardForm.Binary
