import StandardForm.Binary.Arithmetic
import StandardForm.Spectrum.Polynomial

/-!
# Finite matrices as integer matrices

A finite matrix of floating-point numbers is a positive multiple of an integer matrix; the
factor is counted in units of the format and is the greatest that works, so that the integers
stay small whatever the scale of the data.
-/

namespace StandardForm.Spectrum

/-- The signed number of units of an entry, zero for one that is not finite. -/
def unitsOf : Double → Int
  | .nan => 0
  | .num s r => Binary.signedUnits (f := .double) s r.val

/-- The integer matrix `rows` stands for the matrix of `factor * rows` units. -/
structure Exact where
  factor : Nat
  rows : List (List Int)

/-- The greatest common divisor of all entries, one if all are zero. -/
def commonFactor (rows : List (List Int)) : Nat :=
  let g := rows.foldl (fun g r => r.foldl (fun g a => g.gcd a.natAbs) g) 0
  if g = 0 then 1 else g

def Exact.ofRows (rows : List (List Double)) : Exact :=
  let integers := rows.map (·.map unitsOf)
  let g := commonFactor integers
  ⟨g, integers.map (·.map (· / (g : Int)))⟩

def columns (width : Nat) (rows : List (List Int)) : List (List Int) :=
  (List.range width).map fun j => rows.map (·.getD j 0)

end StandardForm.Spectrum
