import StandardForm.Binary.Arithmetic
import StandardForm.Selection.Basic

/-!
# Selection by elimination

Rows of a matrix are told independent by eliminating, in the transposed matrix, with the
entry of greatest magnitude as pivot. Elimination treats every column of the transposed
matrix alike and on its own: it exchanges two entries, divides one of them by the pivot and
subtracts its multiples from the others. So a row of the matrix can be brought through all
pivot steps so far when its turn comes, and a row that yields no pivot needs no clearing.

The method is stated for any numbers that have the four operations and an order, floating
point or exact.
-/

namespace StandardForm.Selection

/-- Numbers that elimination can work with. -/
class Pivotal (α : Type) extends Zero α, Sub α, Mul α, Div α, LE α where
  magnitude : α → α

instance {f : FloatFormat} : Pivotal (Binary f) where
  magnitude := Binary.abs

variable {α : Type} [Pivotal α] [DecidableLE α]

/-- The greatest of some numbers and the index of its first occurrence, counted from `index`.
A number that is unordered with itself exceeds all others. -/
def greatestFrom : (index : Nat) → (best : Nat × α) → List α → Nat × α
  | _, best, [] => best
  | index, best, x :: xs =>
    greatestFrom (index + 1) (if best.2 ≤ best.2 ∧ ¬ x ≤ best.2 then (index, x) else best) xs

/-- The entry of greatest magnitude, from position `start` on. -/
def greatest (start : Nat) (xs : List α) : Nat × α :=
  match (xs.drop start).map Pivotal.magnitude with
  | [] => (start, 0)
  | x :: xs => greatestFrom (start + 1) (start, x) xs

def exchange (i j : Nat) (xs : List α) : List α :=
  (xs.set i (xs.getD j 0)).set j (xs.getD i 0)

/-- A step of the elimination: the pivot comes from position `source`, goes to position
`target`, and stands there in the column that it was found in. -/
structure PivotStep (α : Type) where
  target : Nat
  source : Nat
  column : List α
  deriving DecidableEq

namespace PivotStep

def apply (s : PivotStep α) (xs : List α) : List α :=
  let xs := exchange s.target s.source xs
  let quotient := xs.getD s.target 0 / s.column.getD s.target 0
  (List.zipWith (fun x c => x - c * quotient) xs s.column).set s.target quotient

end PivotStep

def reduce (steps : List (PivotStep α)) (row : List α) : List α :=
  steps.foldl (fun xs s => s.apply xs) row

/-- Keep a row if it has a pivot that is not negligible among the positions without one. -/
def pivotStep (negligible : α → Bool) (steps : List (PivotStep α)) (row : List α) :
    Option (List (PivotStep α)) :=
  let target := steps.length
  if row.length ≤ target then none
  else
    let column := reduce steps row
    let (source, size) := greatest target column
    if negligible size then none
    else some (steps ++ [⟨target, source, exchange target source column⟩])

def byElimination (negligible : α → Bool) (rows : List (List α)) : List Nat :=
  keep (pivotStep negligible) 0 [] rows

def largestMagnitude (rows : List (List α)) : α := (greatest 0 rows.flatten).2

end StandardForm.Selection
