import StandardForm.Notice.Basic

/-!
# Why a problem is rejected

Each rejection keeps the numbers that led to it. A reversed pair of bounds is not among
them: it is repaired and reported instead. What is said about a rejection is said by its notice.
-/

namespace StandardForm

/-- Why data do not describe a problem that a solver can take on. -/
inductive Rejection
  /-- An array does not have the shape that the dimensions of the problem demand. -/
  | dimensionMismatch (name : String) (expected : List Datum) (actual : List Nat)
  /-- The equalities have no solution. -/
  | infeasible (rankA rankAb : Nat)
  /-- Some equalities follow from the others. -/
  | redundantConstraints (rankA m : Nat) (rows : List Nat)
  /-- Some variables have one admissible value only. -/
  | degenerateBound (indices : List Nat)
  /-- Nothing but equalities limits the variables. -/
  | underconstrained
  /-- The quadratic term has a negative eigenvalue beyond rounding. -/
  | notPSD (lowest tolerance : Double)

namespace Rejection

def notice : Rejection → Notice
  | dimensionMismatch name expected actual =>
    .dimensionMismatch (.text name) (.group expected)
      (.group (actual.map fun (n : Nat) => .integer n))
  | infeasible rankA rankAb => .infeasible (.natural rankA) (.natural rankAb)
  | redundantConstraints rankA m rows =>
    .redundantConstraints (.natural rankA) (.natural m) (rows.map Int.ofNat)
  | degenerateBound indices => .degenerateBound (indices.map Int.ofNat)
  | underconstrained => .underconstrained
  | notPSD lowest tolerance => .notPSD lowest tolerance

def category (r : Rejection) : Category := r.notice.category

def message (r : Rejection) : String := r.notice.message

end Rejection

end StandardForm
