import StandardForm.Binary.Conversion
import StandardForm.Spectrum.Exact

/-!
# Numerical rank

The rank of a matrix is the number of its singular values above a tolerance, which is the
largest singular value times the longer side times the distance from one to the next number.
Singular values are meant as correctly rounded numbers here, where a library approximates them.
None of them is computed: how many of them round to a rung or beyond is a count of roots, since
the squares of the exact singular values are the roots of a characteristic polynomial with integer
coefficients.

The polynomial is that of the smaller one of the two products of the matrix with its
transpose, so the rank never exceeds either side.
-/

namespace StandardForm.Spectrum

/-- The squares of the singular values, over the square of a common factor, as the roots of
a polynomial, together with the sum of these roots. -/
structure SingularValues where
  factor : Nat
  polynomial : List Int
  total : Int

def SingularValues.ofRows (width : Nat) (rows : List (List Double)) : SingularValues :=
  let m := Exact.ofRows rows
  let products := gram (if rows.length ≤ width then m.rows else columns width m.rows)
  ⟨m.factor, characteristic products, trace products⟩

namespace SingularValues

/-- Where a singular value has to lie to round to rung `n` or beyond: its square, over the
square of the common factor, reaches this fraction. -/
def lowerEnd (s : SingularValues) (n : Nat) : Int × Nat :=
  let middle := FloatFormat.double.midpoint n
  let den := 2 * s.factor
  ((middle * middle : Nat), den * den)

/-- The number of singular values that round to rung `n` or beyond. A singular value halfway
between two rungs counts for the even one. -/
def countFrom (s : SingularValues) (n : Nat) : Nat :=
  let (square, den) := s.lowerEnd n
  let (above, equal) := rootsFrom s.polynomial square den
  above + if n % 2 = 0 then equal else 0

/-- Whether some singular value rounds to rung `n` or beyond. No root exceeds the sum of all,
and some root reaches their mean, so that roots are counted only in between. -/
def reaches (s : SingularValues) (n : Nat) : Bool :=
  let (square, den) := s.lowerEnd n
  if s.total * den < square then false
  else if square * s.polynomial.length < s.total * den then true
  else 1 ≤ s.countFrom n

def largest (s : SingularValues) : Nat :=
  greatestPassing (fun n => n ≤ FloatFormat.double.top && s.reaches n)
    FloatFormat.double.width 0

def countAbove (s : SingularValues) : Double → Nat
  | .nan => 0
  | .num _ r => if r.val = FloatFormat.double.top then 0 else s.countFrom (r.val + 1)

/-- The tolerance for a matrix whose longer side is `side`. -/
def tolerance (s : SingularValues) (side : Nat) : Double :=
  Binary.ofRung false s.largest * (Binary.ofInt .double side * Binary.twoPowNeg .double 52)

end SingularValues

/-- The number of singular values of a finite matrix that are above the tolerance for its largest
one and its longer side. -/
def significant (width : Nat) (rows : List (List Double)) : Nat :=
  let s := SingularValues.ofRows width rows
  s.countAbove (s.tolerance (Nat.max rows.length width))

/-- The rank of a matrix. An infinite entry makes every singular value undefined and the rank zero;
with a NaN there are no singular values at all. -/
def roundedRank? (width : Nat) (rows : List (List Double)) : Option Nat :=
  if rows.any (·.any Binary.isNaN) then none
  else if rows.any (·.any Binary.isInfinite) then some 0
  else some (significant width rows)

end StandardForm.Spectrum
