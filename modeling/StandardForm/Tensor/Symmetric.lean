import StandardForm.Binary.Arithmetic
import StandardForm.Fault
import StandardForm.Tensor.Spread

/-!
# The symmetric part of an array

The symmetric part is one half of the sum of an array and its transpose, which has the axes
in reverse order. The two are added even where their shapes differ, as long as they have a
common shape.
-/

namespace StandardForm

namespace Tensor

variable {f : FloatFormat}

/-- The entries of the symmetric part, laid out in a given shape. -/
def symmetricPart (shape : List Nat) (t : Tensor (Binary f)) : Tensor (Binary f) :=
  ofFn shape fun i => Binary.twoPowNeg f 1 * (t.entryAt i + t.entryAt i.reverse)

/-- The symmetric part of an array whose shape admits one. -/
def symmetrize (t : Tensor (Binary f)) : Except Fault (Tensor (Binary f)) :=
  match commonShape? t.shape t.shape.reverse with
  | some shape => .ok (t.symmetricPart shape)
  | none => .error .malformed

/-- A square array keeps its shape. -/
theorem symmetrize_square {n : Nat} {t : Tensor (Binary f)} (h : t.shape = [n, n]) :
    t.symmetrize = .ok (t.symmetricPart [n, n]) := by
  simp [symmetrize, h, commonShape?, commonLength?]

end Tensor

end StandardForm
