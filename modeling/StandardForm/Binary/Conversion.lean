import StandardForm.Binary.Basic

/-!
# Conversions into and out of a format

A value enters a format as an exact fraction, whatever it was before: an integer, a
decimal or hexadecimal numeral, or a number of another format. It is rounded once on the
way in. On the way out a number is an integer when nothing of it lies below the unit
position.
-/

namespace StandardForm.Binary

variable {f : FloatFormat}

/-- The number nearest to the signed fraction `num / den`. -/
def ofFraction (f : FloatFormat) (negative : Bool) (num den : Nat) : Binary f :=
  round negative (num * f.one) den

def ofInt (f : FloatFormat) (n : Int) : Binary f := ofFraction f (n < 0) n.natAbs 1

def twoPowNeg (f : FloatFormat) (k : Nat) : Binary f := ofFraction f false 1 (1 <<< k)

def cast (g : FloatFormat) : Binary f → Binary g
  | nan => nan
  | num s r =>
    if r.val = f.top then infinity s
    else ofFraction g s (f.units r.val) f.one

/-- `digits * 10 ^ exponent`. The two guards decide without computing the power when the
value lies beyond the largest or below half of the least magnitude. -/
def ofDecimal (f : FloatFormat) (negative : Bool) (digits : Nat) : (exponent : Int) → Binary f
  | .ofNat e =>
    if digits = 0 then zeroOf negative
    else if 1 <<< (f.exponentWidth - 1) ≤ digits.log2 + 3 * e then infinity negative
    else ofFraction f negative (digits * Nat.pow 10 e) 1
  | .negSucc e =>
    if digits.log2 + f.scale + 2 ≤ 3 * e then zeroOf negative
    else ofFraction f negative digits (Nat.pow 10 (e + 1))

/-- `digits * 2 ^ exponent`, with the same guards. -/
def ofBinaryScaled (f : FloatFormat) (negative : Bool) (digits : Nat) :
    (exponent : Int) → Binary f
  | .ofNat e =>
    if digits = 0 then zeroOf negative
    else if 1 <<< (f.exponentWidth - 1) ≤ digits.log2 + e then infinity negative
    else ofFraction f negative (digits <<< e) 1
  | .negSucc e =>
    if digits.log2 + f.scale + 2 ≤ e then zeroOf negative
    else ofFraction f negative digits (1 <<< (e + 1))

/-- The number rounded toward zero, for a finite one. -/
def truncate? : Binary f → Option Int
  | nan => none
  | num s r =>
    if r.val = f.top then none
    else
      let n : Int := (f.units r.val / f.one : Nat)
      some (if s then -n else n)

/-- The integer that a number is, if it is one. -/
def toInt? : Binary f → Option Int
  | nan => none
  | num s r =>
    if r.val = f.top then none
    else if f.units r.val % f.one = 0 then truncate? (num s r : Binary f)
    else none

end StandardForm.Binary
