import StandardForm.Datum.Number
import StandardForm.Selection.Elimination
import StandardForm.Selection.Projection

/-!
# Independent rows

A tolerance scales with what it is compared to: the greatest magnitude of the matrix for
elimination, the length of the row for projection. It is a number of any width, and the
product and the comparison are made in the width that the two numbers demand together.
-/

namespace StandardForm

/-- A bound on magnitudes, in the width that the comparison is made in. -/
inductive Threshold
  | double (t : Double)
  | extended (t : Binary .extended)

namespace Threshold

def covers : Threshold → Double → Bool
  | double t, x => x ≤ t
  | extended t, x => x.cast .extended ≤ t

def exceededBy : Threshold → Double → Bool
  | double t, x => t < x
  | extended t, x => t < x.cast .extended

end Threshold

/-- A relative tolerance. -/
inductive Tolerance
  | double (t : Double)
  | single (t : Binary .single)
  | extended (t : Binary .extended)

namespace Tolerance

def standard : Tolerance := .double (.twoPowNeg .double 26)

def timesReal : Tolerance → Double → Threshold
  | double t, x => .double (t * x)
  | single t, x => .double ((t * x.cast .single).cast .double)
  | extended t, x => .extended (t * x.cast .extended)

def timesDouble : Tolerance → Double → Threshold
  | double t, x => .double (t * x)
  | single t, x => .double (t.cast .double * x)
  | extended t, x => .extended (t * x.cast .extended)

/-- The tolerance that a single value means. Only numbers of 32 and 80 bits keep their width. -/
def ofScalar : Scalar → Except Fault Tolerance
  | .fixed .single x => .ok (.single x)
  | .fixed .extended x => .ok (.extended x)
  | .text _ => .error .wrongKind
  | s => s.toReal.map .double

/-- The tolerance that a datum means. An array of one entry means that entry. -/
def ofDatum : Datum → Except Fault Tolerance
  | .scalar s => ofScalar s
  | .list _ => .error .wrongKind
  | .array a => do ofScalar (← Datum.onlyEntry a)

end Tolerance

namespace Selection

/-- Elimination with the entries up to the tolerance times the greatest magnitude counting as
zero. -/
def independentByElimination (tol : Tolerance) (rows : List (List Double)) : List Nat :=
  byElimination (tol.timesReal (largestMagnitude rows)).covers rows

/-- Projection with a residual having to exceed the tolerance times the length of the row. -/
def independentByProjection (tol : Tolerance) (rows : List (List Double)) : List Nat :=
  byProjection (fun size length => (tol.timesDouble length).exceededBy size) rows

/-- The indices of independent rows of a matrix. The tolerance need not be a number as long
as it is not used: a matrix without entries uses none, and projection of zero rows neither. -/
def independentRows (t : Tensor Double) (tol : Datum) (pivot : Pivot) :
    Except Fault (List Nat) :=
  match t.shape with
  | [_, _] =>
    if t.size = 0 then .ok []
    else
      match pivot with
      | .column => do return independentByElimination (← Tolerance.ofDatum tol) t.rows
      | .row =>
        if t.rows.all fun r => (Binary.norm r).isZero then .ok []
        else do return independentByProjection (← Tolerance.ofDatum tol) t.rows
  | shape => .error (.rejected (.dimensionMismatch "A" [.text "M", .text "N"] shape))

end Selection

end StandardForm
