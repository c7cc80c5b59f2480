/-!
# Decimal digits of positive fractions

A positive number is a fraction `num / den`. Both ways to write one in decimal divide it by
a power of ten and round to an integer; they differ in how that power is found.
-/

namespace StandardForm.Decimal

/-- A power of ten is found from a power of two through this approximation of its logarithm,
which is a little too large. -/
def log10Two : Int × Int := (30103, 100000)

/-- `num / den` divided by `10 ^ e`, again as a fraction. -/
def scaled (num den : Nat) : (e : Int) → Nat × Nat
  | .ofNat k => (num, den * Nat.pow 10 k)
  | .negSucc k => (num * Nat.pow 10 (k + 1), den)

/-- An exponent of ten at or just above the magnitude of `num / den`: the power exceeds half
of the fraction and is less than a hundred times it. -/
def ceilExponent (num den : Nat) : Int :=
  Int.fdiv (((num.log2 : Int) - den.log2 + 1) * log10Two.1) log10Two.2 + 1

/-- The exponent of the leading digit of `num / den`, looking down from `e` through at most
`steps` candidates. -/
def leadingExponent (num den : Nat) : (steps : Nat) → (e : Int) → Int
  | 0, e => e
  | steps + 1, e =>
    let (n, d) := scaled num den e
    if d ≤ n then e else leadingExponent num den steps (e - 1)

/-- The digits of a number and the power of ten that its last digit counts. -/
structure Digits where
  digits : Nat
  exponent : Int
  deriving DecidableEq

/-- `n` in decimal, with zeros in front up to `width` digits. -/
def padded (width n : Nat) : String :=
  let ds := Nat.toDigits 10 n
  String.ofList (List.replicate (width - ds.length) '0' ++ ds)

def trimZeros (ds : List Char) : List Char := (ds.reverse.dropWhile (· == '0')).reverse

def exponentText (e : Int) : String :=
  (if e < 0 then "e-" else "e+") ++ padded 2 e.natAbs

/-- A numeral taken apart: the digits before the point, those behind it without zeros at their
end, and the power of ten that goes with them. -/
structure Parts where
  whole : String
  fraction : String
  power : Int
  deriving DecidableEq

namespace Digits

/-- The parts of a numeral without a power of ten. -/
def positional (ds : Digits) : Parts :=
  match ds.exponent with
  | .ofNat e => ⟨toString (ds.digits * Nat.pow 10 e), "", 0⟩
  | .negSucc e =>
    let unit := Nat.pow 10 (e + 1)
    ⟨toString (ds.digits / unit),
      String.ofList (trimZeros (padded (e + 1) (ds.digits % unit)).toList), 0⟩

/-- The parts of a numeral with one digit before the point. -/
def scientific (ds : Digits) : Parts :=
  let text := Nat.toDigits 10 ds.digits
  ⟨String.ofList (text.take 1), String.ofList (trimZeros (text.drop 1)),
    text.length + ds.exponent - 1⟩

end Digits

end StandardForm.Decimal
