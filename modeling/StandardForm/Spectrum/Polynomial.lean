/-!
# Characteristic polynomials and the position of their roots

The characteristic polynomial of a symmetric integer matrix has integer coefficients and
real roots only. For such a polynomial the rule of signs is exact: after moving a point to
the origin, the number of roots to the right of it is the number of sign variations, and the
number of roots at it is the number of vanishing coefficients at the low end. Ranks and least
eigenvalues are decided this way, without any approximation of a root.

The coefficients follow from the sums of the powers of the roots, which are the traces of the
powers of the matrix. Few products of matrices are needed for these: the trace of a product of
two powers is found without multiplying them.

Polynomials are lists of coefficients, the leading one first.
-/

namespace StandardForm.Spectrum

def dot : List Int → List Int → Int
  | a :: as, b :: bs => if a = 0 then dot as bs else a * b + dot as bs
  | _, _ => 0

/-- The symmetric matrix whose rows are given up to the diagonal. -/
def reflected (lower : List (List Int)) : List (List Int) :=
  lower.zipIdx.map fun (r, i) => r ++ (lower.drop (i + 1)).map (·.getD i 0)

def product (A B : List (List Int)) : List (List Int) :=
  reflected (A.zipIdx.map fun (r, i) => (B.take (i + 1)).map (dot r))

def gram (rows : List (List Int)) : List (List Int) := product rows rows

def trace (A : List (List Int)) : Int :=
  A.zipIdx.foldl (fun sum (r, i) => sum + r.getD i 0) 0

/-- The trace of the product of two symmetric matrices, without the product. -/
def traceOfProduct (A B : List (List Int)) : Int := (List.zipWith dot A B).foldl (· + ·) 0

/-- The first powers of a symmetric matrix times another one that commutes with it, from that
one itself on. -/
def powersFrom (A : List (List Int)) : (count : Nat) → (B : List (List Int)) →
    List (List (List Int))
  | 0, _ => []
  | 1, B => [B]
  | count + 2, B => B :: powersFrom A (count + 1) (product A B)

/-- The least number whose square is at least `n`. -/
def rootAbove (n : Nat) : Nat := ((List.range n).find? fun k => n ≤ k * k).getD n

/-- The sums of the powers of the eigenvalues, that is, the traces of the powers of a symmetric
matrix, for all exponents up to `n` at least. The powers up to a step are multiplied out, and so
are the multiples of the step; an exponent in between is the sum of two of these. -/
def powerSums (n : Nat) (A : List (List Int)) : List Int :=
  let step := rootAbove n
  let low := powersFrom A step A
  let power := low.getLastD []
  let high := powersFrom power ((n - 1) / step) power
  low.map trace ++ high.flatMap fun B => low.map (traceOfProduct B)

/-- The coefficients of a polynomial from the sums of the powers of its roots. Given those
before, the last one first, the `k`-th coefficient is a sum of products divided by `k`, which
leaves no remainder. -/
def coefficientsFrom (sums : List Int) : (steps : Nat) → (k : Int) → (known : List Int) →
    List Int
  | 0, _, known => known.reverse
  | steps + 1, k, known =>
    coefficientsFrom sums steps (k + 1) (-(dot known sums / k) :: known)

def characteristic (A : List (List Int)) : List Int :=
  coefficientsFrom (powerSums A.length A) A.length 1 [1]

/-- The polynomial whose roots are `k` times the roots of `p`; the `i`-th coefficient gains
a factor `k ^ i`. -/
def scaleRoots (k : Int) : (power : Int) → (p : List Int) → List Int
  | _, [] => []
  | power, c :: p => c * power :: scaleRoots k (power * k) p

/-- The values of the nested scheme at `t`: the coefficients of the quotient by the linear
factor of `t`, and last the remainder. -/
def synthetic (t : Int) : (carry : Int) → (p : List Int) → List Int
  | _, [] => []
  | carry, c :: p => (c + t * carry) :: synthetic t (c + t * carry) p

/-- The remainders of dividing by the linear factor of `t` again and again, `steps` times. -/
def shiftedFrom (t : Int) : (steps : Nat) → (p : List Int) → List Int
  | 0, _ => []
  | steps + 1, p =>
    let values := synthetic t 0 p
    values.getLastD 0 :: shiftedFrom t steps values.dropLast

/-- The coefficients of `p (x + t)`, the constant one first. -/
def shifted (t : Int) (p : List Int) : List Int := shiftedFrom t p.length p

/-- The number of changes of sign along a list, zeros left out. -/
def variations : List Int → Nat
  | a :: b :: cs => variations (b :: cs) + if decide (a < 0) = decide (b < 0) then 0 else 1
  | _ => 0

/-- The coefficients around the point `num / den`, the constant one first, up to a positive
factor each. -/
def around (p : List Int) (num : Int) (den : Nat) : List Int :=
  let g := num.natAbs.gcd den
  shifted (num / g) (scaleRoots (den / g) 1 p)

/-- The numbers of roots above `num / den` and at it. -/
def rootsFrom (p : List Int) (num : Int) (den : Nat) : Nat × Nat :=
  let coefficients := around p num den
  (variations (coefficients.filter (· ≠ 0)), (coefficients.takeWhile (· = 0)).length)

end StandardForm.Spectrum
