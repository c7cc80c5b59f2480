import StandardForm.Category
import StandardForm.Datum.Display
import StandardForm.Decimal.Scientific

/-!
# Notices

A notice announces that a problem is rejected: its kind says why, its details say more. An
application may give notices of its own, so most details are whatever it provides; only
indices are integers and eigenvalues real numbers. The notices of this library are those of its
rejections.
-/

namespace StandardForm

/-- A detail of a notice: a datum or a group of data. -/
inductive Detail
  | datum (d : Datum)
  | group (items : List Datum)

namespace Detail

abbrev text (s : String) : Detail := datum (.text s)

abbrev natural (n : Nat) : Detail := datum (.integer n)

def display : Detail → String
  | datum d => d.display
  | group items => parenthesized (items.map Datum.display)

def plain : Detail → String
  | datum d => d.plain
  | group items => parenthesized (items.map Datum.display)

def inserted : Detail → String
  | datum d => d.inserted
  | group items => parenthesized (items.map Datum.display)

end Detail

/-- What is announced about a problem. -/
inductive Notice
  | dimensionMismatch (name expected actual : Detail)
  | infeasible (rankA rankAb : Detail)
  | redundantConstraints (rankA m : Detail) (rows : List Int)
  | degenerateBound (indices : List Int)
  | underconstrained
  | notPSD (lowest tolerance : Double)
  /-- A notice of a kind that prescribes no details. -/
  | general (kind : Category) (details : List Detail)

namespace Notice

def category : Notice → Category
  | dimensionMismatch .. => .dimensionMismatch
  | infeasible .. => .infeasible
  | redundantConstraints .. => .redundantConstraints
  | degenerateBound .. => .degenerateBound
  | underconstrained => .underconstrained
  | notPSD .. => .notPSD
  | general kind _ => kind

def indexList (indices : List Int) : String := bracketed (indices.map toString)

def message : Notice → String
  | dimensionMismatch name expected actual =>
    "incompatible dimension: " ++ name.inserted ++ " (expected " ++ expected.inserted ++ ", got "
      ++ actual.inserted ++ ")"
  | infeasible rankA rankAb =>
    "infeasible: Ax=b (rank(A)=" ++ rankA.inserted ++ ", rank([A|b])=" ++ rankAb.inserted ++ ")"
  | redundantConstraints rankA m rows =>
    "redundant rows in Ax=b (rank(A)=" ++ rankA.inserted ++ " < M=" ++ m.inserted
      ++ (if rows = [] then "" else ", dependent rows " ++ indexList rows) ++ ")"
  | degenerateBound indices =>
    "downside bound == upper bound detected at " ++ indexList indices
  | underconstrained => "no inequalities and bounds"
  | notPSD lowest tolerance =>
    "variance matrix is not positive-semidefinite (min eigenvalue " ++ lowest.scientific 3
      ++ " < -" ++ tolerance.scientific 3 ++ ")"
  | general _ [] => ""
  | general _ [detail] => detail.plain
  | general _ details => parenthesized (details.map Detail.display)

end Notice

end StandardForm
