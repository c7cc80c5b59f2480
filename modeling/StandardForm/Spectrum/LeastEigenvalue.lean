import StandardForm.Binary.Conversion
import StandardForm.Spectrum.Exact

/-!
# The least eigenvalue of a symmetric matrix

Only the entries on and below the diagonal are read. An index whose row has no other nonzero
entry contributes its diagonal entry as an eigenvalue. What is left is one matrix without such
indices. Two rows are solved by the quadratic formula. The least eigenvalue of more of them is the
highest rung whose lower midpoint does not exceed any root of the characteristic polynomial: the
exact eigenvalue, rounded once.
-/

namespace StandardForm.Spectrum

/-- The symmetric matrix with the given entries on and below the diagonal. -/
def ofLowerTriangle (rows : List (List Double)) : List (List Double) :=
  (List.range rows.length).map fun i => (List.range rows.length).map fun j =>
    (rows.getD (Nat.max i j) []).getD (Nat.min i j) 0

def pick {α : Type} [Zero α] (indices : List Nat) (as : List α) : List α :=
  indices.map (as.getD · 0)

/-- Whether all entries of a row but that at `i` are zero. -/
def isolated (row : List Double) (i : Nat) : Bool := (row.eraseIdx i).all Binary.isZero

/-- The signed number of units at a signed position of the ladder. -/
def unitsAt (k : Int) : Int := Binary.signedUnits (f := .double) (k < 0) k.natAbs

def numberAt (k : Int) : Double := Binary.ofRung (k < 0) k.natAbs

/-- The greatest sum of magnitudes along a row, which no eigenvalue exceeds in magnitude. -/
def rowBound (rows : List (List Int)) : Nat :=
  rows.foldl (fun bound r => Nat.max bound (r.foldl (fun sum a => sum + a.natAbs) 0)) 0

/-- Whether every eigenvalue of an integer matrix, times `factor` units, rounds to the signed
position `k` or beyond. Outside the bounds of the eigenvalues no root has to be counted. -/
def allFrom (m : Exact) (p : List Int) (bound : Nat) (k : Int) : Bool :=
  let middle := unitsAt k + unitsAt (k - 1)
  let limit : Int := 2 * m.factor * bound
  if limit < middle then false
  else if middle < -limit then true
  else
    let (above, equal) := rootsFrom p middle (2 * m.factor)
    above + (if k % 2 = 0 then equal else 0) == m.rows.length

/-- The least eigenvalue of an integer matrix, times its factor in units, rounded to nearest. -/
def leastOfExact (m : Exact) : Double :=
  let top := FloatFormat.double.top
  let passes := allFrom m (characteristic m.rows) (rowBound m.rows)
  let n := greatestPassing (fun n => n ≤ 2 * top && passes (n - top))
    (FloatFormat.double.width + 1) 0
  numberAt (n - top)

/-! ## Two rows

The least eigenvalue of two rows is not the exact one. It comes from the quadratic formula, step by
step in 64-bit numbers, provided that no number is so large or so small that the matrix has to be
rescaled for it. -/

/-- The eigenvalue of the rows `[a, b]` and `[b, c]` that is least by the quadratic formula. The
formula gives the one of greater magnitude, and the determinant the other one. -/
def leastByFormula (a b c : Double) : Double :=
  let half := Binary.twoPowNeg .double 1
  let one := Binary.ofInt .double 1
  let b := (b * b).sqrt
  let trace := a + c
  let gap := (a - c).abs
  let twice := (b + b).abs
  let root :=
    if twice < gap then gap * (one + twice / gap * (twice / gap)).sqrt
    else if gap < twice then twice * (one + gap / twice * (gap / twice)).sqrt
    else twice * (Binary.ofInt .double 2).sqrt
  let (greater, lesser) := if c.abs < a.abs then (a, c) else (c, a)
  let other (first : Double) := greater / first * lesser - b / first * b
  let (first, second) :=
    if trace < 0 then (half * (trace - root), other (half * (trace - root)))
    else if 0 < trace then (half * (trace + root), other (half * (trace + root)))
    else (half * root, -(half * root))
  if second < first then second else first

/-- An entry beside the diagonal that is negligible leaves the diagonal entries as eigenvalues. -/
def leastOfTwo (a b c : Double) : Double :=
  if b.abs ≤ a.abs.sqrt * c.abs.sqrt * Binary.twoPowNeg .double 53 ∨
      b * b ≤ Binary.twoPowNeg .double 106 * (a * c).abs then Binary.min a c
  else leastByFormula a b c

/-- Whether the greatest of some magnitudes allows to do without a rescaling. -/
def unscaled (xs : List Double) : Bool :=
  xs.all (·.abs ≤ Binary.ofInt .double (Nat.pow 2 485)) &&
    xs.any (Binary.twoPowNeg .double 405 ≤ ·.abs)

/-! ## Finite matrices -/

def leastOfSymmetric (rows : List (List Double)) : Double :=
  let indexed := rows.zipIdx
  let alone := indexed.filter fun (r, i) => isolated r i
  let rest := (indexed.filter fun (r, i) => !isolated r i).map (·.2)
  let diagonal := alone.map fun (r, i) => r.getD i 0
  let least := diagonal.foldl Binary.min (.infinity false)
  if rest = [] then least
  else
    let exact := leastOfExact (Exact.ofRows (rest.map fun i => pick rest (rows.getD i [])))
    match rows with
    | [[a, _], [b, c]] => if unscaled [a, b, c] then leastOfTwo a b c else exact
    | _ => Binary.min least exact

/-! ## Matrices that are not finite

An eigenvalue routine brings a symmetric matrix to a tridiagonal form by reflections and iterates on
that. A NaN goes through: a reflection spreads it over everything that comes after, and an iteration
with one in it does not end, unless so small a part of the matrix has split off that there is
nothing to iterate. The rules below are those of this procedure. -/

def entry (rows : List (List Double)) (i j : Nat) : Double := (rows.getD i []).getD j 0

/-- Whether a reflection spreads a NaN: below the subdiagonal of some column is an entry other than
zero, and a NaN stands there or further to the right. -/
def spreadsNaN (s : List (List Double)) : Bool :=
  let indices := List.range s.length
  indices.any fun k =>
    indices.any (fun i => k + 1 < i && !(entry s i k).isZero) &&
      indices.any fun i => indices.any fun j => k < i && k ≤ j && (entry s i j).isNaN

/-- Whether a matrix splits before an index: nothing below connects the two parts but an entry next
to the diagonal that is negligible beside its neighbours there. -/
def splitsBefore (s : List (List Double)) (k : Nat) : Bool :=
  let indices := List.range s.length
  let scale := (entry s (k - 1) (k - 1)).abs.sqrt * (entry s k k).abs.sqrt
  (indices.all fun i => indices.all fun j =>
    i < k || k ≤ j || (i == k && j + 1 == k) || (entry s i j).isZero) &&
    (entry s k (k - 1)).abs ≤ scale * Binary.twoPowNeg .double 53

/-- The least eigenvalue of a part that has split off, if the iteration on it ends. -/
def leastOfPart (s : List (List Double)) : Option Double :=
  if s.all (·.all Binary.isFinite) then some (leastOfSymmetric s)
  else
    match s with
    | [[x]] => some x
    | [[x, _], [b, y]] =>
      some (if x.isNaN || b.isNaN || y.isNaN then leastByFormula x b y else .nan)
    | _ => none

/-- The first of some numbers in ascending order, where a NaN stays in its place. -/
def firstSorted : List Double → Double
  | [] => 0
  | x :: xs =>
    (xs.takeWhile fun y => !y.isNaN).foldl (fun least y => if y < least then y else least) x

/-- The least eigenvalue of a symmetric matrix with a NaN, if the iterations on its parts end. -/
def leastWithNaN (s : List (List Double)) : Option Double :=
  if spreadsNaN s then none
  else
    let parts := (List.range s.length).splitBy fun _ k => !splitsBefore s k
    (parts.mapM fun indices => leastOfPart (indices.map fun i => pick indices (s.getD i []))).map
      firstSorted

/-- The least eigenvalue of a square matrix, of which only the lower triangle counts. A matrix with
an infinity is divided by it before anything else, which leaves no numbers other than zero. -/
def roundedLeastEigenvalue? (rows : List (List Double)) : Option Double :=
  let s := ofLowerTriangle rows
  if s.all (·.all Binary.isFinite) then some (leastOfSymmetric s)
  else
    match s with
    | [[x]] => some x
    | _ =>
      if s.any (·.any Binary.isNaN) then leastWithNaN s
      else (leastWithNaN (s.map (·.map fun x => if x.isFinite then 0 else .nan))).map fun _ => .nan

end StandardForm.Spectrum
