import StandardForm.Datum.Shaped

/-!
# Notices out of their details

A kind of notice prescribes how many details it takes. Where it lists indices, the items of the
detail have to stand for integers; where it names eigenvalues, the details have to be real
numbers.
-/

namespace StandardForm

namespace Detail

/-- The items of a detail: those of a group, the characters of a text, the entries of a vector,
the rows of a matrix. A single value has none. -/
def items : Detail → Except Fault (List Datum)
  | group items => .ok items
  | datum d =>
    match d with
    | .scalar (.text _) | .list _ => .ok d.axes
    | .array a => if a.shape = [] then .error .wrongKind else .ok d.axes
    | .scalar _ => .error .wrongKind

/-- The indices that a detail lists. The notice has to be able to write them. -/
def indices (detail : Detail) : Except Fault (List Int) := do
  let indices ← (← detail.items).mapM Datum.toInt
  indices.forM Datum.requireWritable
  return indices

def toReal : Detail → Except Fault Double
  | datum d => d.toReal
  | group _ => .error .wrongKind

end Detail

/-- The notice of a kind with the given details. -/
def Notice.ofDetails : Category → List Detail → Except Fault Notice
  | .dimensionMismatch, [name, expected, actual] => .ok (.dimensionMismatch name expected actual)
  | .infeasible, [rankA, rankAb] => .ok (.infeasible rankA rankAb)
  | .redundantConstraints, [rankA, m] => .ok (.redundantConstraints rankA m [])
  | .redundantConstraints, [rankA, m, rows] => rows.indices.map (.redundantConstraints rankA m)
  | .degenerateBound, [rows] => rows.indices.map .degenerateBound
  | .underconstrained, [] => .ok .underconstrained
  | .notPSD, [lowest, tolerance] => do return .notPSD (← lowest.toReal) (← tolerance.toReal)
  | .dimensionMismatch, _ | .infeasible, _ | .redundantConstraints, _ | .degenerateBound, _
  | .underconstrained, _ | .notPSD, _ => .error .wrongKind
  | kind, details => .ok (.general kind details)

end StandardForm
