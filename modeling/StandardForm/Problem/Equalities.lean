import StandardForm.Selection.Independent
import StandardForm.Spectrum.Routines

/-!
# Consistent and independent equalities

The equalities `A x = b` are accepted when the coefficients have the same rank with and
without the right-hand side and this rank is the number of rows. When rows depend on others,
they are named: they are the ones that elimination does not select.
-/

namespace StandardForm

namespace Equalities

variable [Spectrum.Routines] {f : FloatFormat}

/-- The rows that a selection leaves out. -/
def leftOut (m : Nat) (kept : List Nat) : List Nat :=
  (List.range m).filter fun i => !kept.contains i

/-- Require that the equalities have a solution and that none of them follows from others.
The rank without the right-hand side is found first; without rows there is no other. -/
def check (A b : Tensor (Binary f)) : Except Fault Unit :=
  match A.shape with
  | [] => .error .missingAxis
  | m :: _ => do
    let rankA ← Spectrum.rank A
    let rankAb ← if m = 0 then .ok 0 else Spectrum.rankBeside A b
    if rankAb ≠ rankA then .error (.rejected (.infeasible rankA rankAb))
    else if rankA < m then
      let kept ← Selection.independentRows (A.map (Binary.cast .double))
        (.scalar (.fixed .double (.twoPowNeg .double 26))) .column
      .error (.rejected (.redundantConstraints rankA m (leftOut m kept)))
    else .ok ()

end Equalities

end StandardForm
