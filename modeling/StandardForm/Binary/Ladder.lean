/-!
# The ladder of magnitudes of a binary format

A binary floating-point format has finitely many magnitudes. Listed in increasing
order they form a ladder: rung `0` is zero, the last rung is infinity, and rung `n`
has a significand and an exponent that are the quotient and the remainder of `n` by
the number of rungs in a binade. Comparing magnitudes is comparing rungs, moving by
a power of two is moving by whole binades, and rounding to nearest is finding the
nearest rung, ties going to the even one. Overflow needs no case of its own: infinity
is the rung that would follow the largest finite one.

Magnitudes are counted in *units*, the least positive magnitude of the format, so that
every finite one is a natural number and all arithmetic on them is exact.
-/

namespace StandardForm

/-- The formats in use: 32 and 64 bits, and the 80-bit format with 64 significant bits. -/
inductive FloatFormat
  | single
  | double
  | extended
  deriving DecidableEq

namespace FloatFormat

def precision : FloatFormat → Nat
  | single => 24
  | double => 53
  | extended => 64

def exponentWidth : FloatFormat → Nat
  | single => 8
  | double => 11
  | extended => 15

def bytes : FloatFormat → Nat
  | single => 4
  | double => 8
  | extended => 16

/-- The least positive magnitude is `2 ^ (-scale)`. -/
def scale : FloatFormat → Nat
  | single => 149
  | double => 1074
  | extended => 16445

def one (f : FloatFormat) : Nat := 1 <<< f.scale

/-- Number of rungs that share one exponent. -/
def binade (f : FloatFormat) : Nat := 1 <<< (f.precision - 1)

/-- The rung of infinity. -/
def top (f : FloatFormat) : Nat := ((1 <<< f.exponentWidth) - 1) * f.binade

/-- Number of bits that hold every rung. -/
def width (f : FloatFormat) : Nat := f.exponentWidth + f.precision - 1

/-- A rung above the first two binades spans `2 ^ stretch` units. -/
def stretch (f : FloatFormat) (n : Nat) : Nat := n / f.binade - 1

/-- The magnitude of rung `n`, in units. For the top rung it is the power of two that
would come next. -/
def units (f : FloatFormat) (n : Nat) : Nat :=
  (n - f.stretch n * f.binade) <<< f.stretch n

end FloatFormat

/-- `num / den` to the nearest integer, a half going to the even one. -/
def roundHalfEven (num den : Nat) : Nat :=
  let q := num / den
  let r := num % den
  if 2 * r < den ∨ (2 * r = den ∧ q % 2 = 0) then q else q + 1

namespace FloatFormat

/-- The rung nearest to `num / den` units, a tie going to the even one. With `s` chosen so
that the quotient has at most `precision` bits above `2 ^ s`, the rungs around it are the
multiples of `2 ^ s`; a carry into the next power of two lands on the right rung by itself. -/
def nearest (f : FloatFormat) (num den : Nat) : Fin (f.top + 1) :=
  let s := (num / den).log2 + 1 - f.precision
  ⟨min f.top (s * f.binade + roundHalfEven num (den <<< s)), by omega⟩

/-- Twice the midpoint between rung `n` and the one below it. -/
def midpoint (f : FloatFormat) (n : Nat) : Nat := f.units n + f.units (n - 1)

end FloatFormat

/-- Extend `start` by the largest number of `bits` bits for which `passes` still holds, for
a `passes` that holds up to some point and fails from there on. -/
def greatestPassing (passes : Nat → Bool) : (bits start : Nat) → Nat
  | 0, start => start
  | bits + 1, start =>
    if passes (start + (1 <<< bits)) then greatestPassing passes bits (start + (1 <<< bits))
    else greatestPassing passes bits start

end StandardForm
