import StandardForm.Binary.Ladder

/-!
# Binary floating-point numbers

A number is a sign and a rung of its format's ladder of magnitudes, or the single
not-a-number. Infinity is the top rung, so only arithmetic has to ask for it; sign,
absolute value and order never do.

Two notions of equality are kept apart: `=` tells the two zeros apart and makes a NaN
equal to itself, `equals` is numeric comparison, for which the zeros agree and a NaN
agrees with nothing.
-/

namespace StandardForm

/-- A floating-point number of format `f`. -/
inductive Binary (f : FloatFormat)
  | nan
  | num (negative : Bool) (rung : Fin (f.top + 1))
  deriving DecidableEq

/-- A 64-bit number, the format of all decisions about ranks, rows and eigenvalues. -/
abbrev Double := Binary .double

namespace Binary

variable {f : FloatFormat}

/-- The number on a rung, infinity for rungs beyond the top. -/
def ofRung (negative : Bool) (n : Nat) : Binary f :=
  num negative ⟨min f.top n, by omega⟩

def infinity (negative : Bool) : Binary f := num negative ⟨f.top, by omega⟩

def zeroOf (negative : Bool) : Binary f := num negative ⟨0, by omega⟩

instance : Zero (Binary f) := ⟨zeroOf false⟩

/-- The number closest to the signed fraction `num / den`, both counted in units. -/
def round (negative : Bool) (num den : Nat) : Binary f :=
  .num negative (f.nearest num den)

def isNaN : Binary f → Bool
  | nan => true
  | num .. => false

def isInfinite : Binary f → Bool
  | nan => false
  | num _ r => r.val == f.top

def isFinite : Binary f → Bool
  | nan => false
  | num _ r => r.val != f.top

def isZero : Binary f → Bool
  | nan => false
  | num _ r => r.val == 0

def neg : Binary f → Binary f
  | nan => nan
  | num s r => num (!s) r

instance : Neg (Binary f) := ⟨neg⟩

def abs : Binary f → Binary f
  | nan => nan
  | num _ r => num false r

/-- The position on the ladder, counted downwards for negative numbers. -/
def position (negative : Bool) (rung : Nat) : Int :=
  if negative then -(rung : Int) else rung

/-- Numeric order; a NaN is below nothing and above nothing. -/
def le : Binary f → Binary f → Bool
  | num s r, num t q => position s r.val ≤ position t q.val
  | _, _ => false

def lt : Binary f → Binary f → Bool
  | num s r, num t q => position s r.val < position t q.val
  | _, _ => false

/-- Numeric equality: the zeros are equal, a NaN equals nothing. -/
def equals : Binary f → Binary f → Bool
  | num s r, num t q => position s r.val == position t q.val
  | _, _ => false

instance : LE (Binary f) := ⟨fun x y => x.le y = true⟩
instance : LT (Binary f) := ⟨fun x y => x.lt y = true⟩
instance (x y : Binary f) : Decidable (x ≤ y) := inferInstanceAs (Decidable (_ = true))
instance (x y : Binary f) : Decidable (x < y) := inferInstanceAs (Decidable (_ = true))

def min (x y : Binary f) : Binary f :=
  if x.isNaN then x else if y.isNaN then y else if y < x then y else x

/-- The signed number of units of a finite number. -/
def signedUnits (negative : Bool) (rung : Nat) : Int :=
  let u : Int := f.units rung
  if negative then -u else u

end Binary

end StandardForm
