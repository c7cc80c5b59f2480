import StandardForm.Binary.Basic

/-!
# Arithmetic on floating-point numbers

Each operation computes the exact result as a fraction of units and rounds it once, to
nearest with ties to even. What is left are the cases in which no exact result exists
(NaN), in which it is infinite, and the sign of a zero result.
-/

namespace StandardForm.Binary

variable {f : FloatFormat}

/-- The sum. Exact cancellation gives a positive zero unless both terms are negative. -/
def add : Binary f → Binary f → Binary f
  | num s r, num t q =>
    if r.val = f.top then
      if q.val = f.top ∧ s ≠ t then nan else num s r
    else if q.val = f.top then num t q
    else
      let sum := signedUnits (f := f) s r.val + signedUnits (f := f) t q.val
      if sum = 0 then zeroOf (s && t) else round (sum < 0) sum.natAbs 1
  | _, _ => nan

instance : Add (Binary f) := ⟨add⟩

def sub (x y : Binary f) : Binary f := x + -y

instance : Sub (Binary f) := ⟨sub⟩

/-- The product; zero times infinity is undefined. -/
def mul : Binary f → Binary f → Binary f
  | num s r, num t q =>
    if r.val = f.top ∨ q.val = f.top then
      if r.val = 0 ∨ q.val = 0 then nan else infinity (s != t)
    else round (s != t) (f.units r.val * f.units q.val) f.one
  | _, _ => nan

instance : Mul (Binary f) := ⟨mul⟩

/-- The quotient. A nonzero number over zero is infinite, zero over zero is undefined. -/
def div : Binary f → Binary f → Binary f
  | num s r, num t q =>
    if r.val = f.top then
      if q.val = f.top then nan else infinity (s != t)
    else if q.val = f.top then zeroOf (s != t)
    else if q.val = 0 then
      if r.val = 0 then nan else infinity (s != t)
    else round (s != t) (f.units r.val * f.one) (f.units q.val)
  | _, _ => nan

instance : Div (Binary f) := ⟨div⟩

/-- The square root. The result is the highest rung whose midpoint with the rung below
does not exceed the exact root; a root of a number of the format is never such a midpoint,
so no tie arises. -/
def sqrt : Binary f → Binary f
  | nan => nan
  | num s r =>
    if r.val = 0 then num s r
    else if s then nan
    else if r.val = f.top then num s r
    else
      let square := 4 * (f.units r.val * f.one)
      ofRung false
        (greatestPassing (fun n => n ≤ f.top ∧ f.midpoint n * f.midpoint n ≤ square) f.width 0)

def sum (xs : List (Binary f)) : Binary f := xs.foldl (· + ·) 0

def dot (xs ys : List (Binary f)) : Binary f := sum (List.zipWith (· * ·) xs ys)

/-- The Euclidean length, with no rescaling: the squares may overflow or vanish. -/
def norm (xs : List (Binary f)) : Binary f := sqrt (dot xs xs)

end StandardForm.Binary
