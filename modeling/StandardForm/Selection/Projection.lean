import StandardForm.Binary.Arithmetic
import StandardForm.Selection.Basic

/-!
# Selection by orthogonal projection

Each row is projected on the directions of the rows kept so far. It is kept when what the
projection leaves over is long enough in comparison with the row, and its remainder, scaled
to length one, becomes a new direction. A row of length zero is never kept.
-/

namespace StandardForm.Selection

variable {f : FloatFormat}

/-- The part of a row along the directions kept so far. -/
def projection (basis : List (List (Binary f))) (row : List (Binary f)) : List (Binary f) :=
  (basis.map fun b => (b, Binary.dot b row)).foldl
    (fun total (b, c) => List.zipWith (fun t x => t + x * c) total b)
    (List.replicate row.length 0)

def residual (basis : List (List (Binary f))) (row : List (Binary f)) : List (Binary f) :=
  List.zipWith (· - ·) row (projection basis row)

/-- Keep a row whose residual is long enough; `longEnough size length` compares the length of
the residual with that of the row. -/
def projectionStep (longEnough : Binary f → Binary f → Bool) (basis : List (List (Binary f)))
    (row : List (Binary f)) : Option (List (List (Binary f))) :=
  let length := Binary.norm row
  if length.isZero then none
  else
    let rest := residual basis row
    let size := Binary.norm rest
    if longEnough size length then some (basis ++ [rest.map (· / size)]) else none

def byProjection (longEnough : Binary f → Binary f → Bool) (rows : List (List (Binary f))) :
    List Nat :=
  keep (projectionStep longEnough) 0 [] rows

end StandardForm.Selection
