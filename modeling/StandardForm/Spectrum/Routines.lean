import StandardForm.Binary.Conversion
import StandardForm.Fault
import StandardForm.Tensor.Basic

/-!
# Ranks and eigenvalues

Numerical ranks and eigenvalues come from a library. All that a problem asks of it are two
functions of a matrix of 64-bit numbers, and either may come to no end. Here they are whatever an
instance says, and arrays are brought to the form in which the library takes them. The library
that runs is `Spectrum.rounded`.
-/

namespace StandardForm.Spectrum

/-- The routines of a numerical library: the rank of a matrix with `width` columns, and the least
eigenvalue of the symmetric matrix with the same entries on and below the diagonal. There is none
if the routine does not converge. -/
class Routines where
  rank? (width : Nat) (rows : List (List Double)) : Option Nat
  leastEigenvalue? (rows : List (List Double)) : Option Double

def found {α : Type} : Option α → Except Fault α
  | some a => .ok a
  | none => .error .undefinedSpectrum

/-- The matrices along the last two axes of an array. -/
def matrices {α : Type} (t : Tensor α) : List (List (List α)) :=
  match t.shape.reverse with
  | n :: m :: shape => (Tensor.chunks (m * n) (volume shape) t.entries).map (Tensor.chunks n m)
  | _ => []

variable [Routines]

/-- The rank of a matrix, zero if it has no entries. -/
def rankOfRows (width : Nat) (rows : List (List Double)) : Except Fault Nat :=
  if rows.length * width = 0 then .ok 0 else found (Routines.rank? width rows)

/-- The rank of several matrices with `size` entries in all. Only without entries is there a
single rank. -/
def rankOfMany (size width : Nat) (several : List (List (List Double))) : Except Fault Nat :=
  if size = 0 then .ok 0
  else do
    let _ ← several.mapM fun rows => found (Routines.rank? width rows)
    .error .wrongKind

/-- The rank of an array. Without entries it is zero; with fewer than two axes it is one
unless every entry is zero. -/
def rank {f : FloatFormat} (t : Tensor (Binary f)) : Except Fault Nat :=
  let t := t.map (Binary.cast .double)
  match t.shape with
  | [] | [_] => .ok (if t.entries.any (!·.isZero) then 1 else 0)
  | [_, n] => if t.size = 0 then .ok 0 else rankOfRows n t.rows
  | shape => rankOfMany t.size (shape.getLastD 0) (matrices t)

/-- The numbers of rows and columns that an array contributes to a matrix. A vector is one
column, and an array without axes one entry. -/
def columnsShape? : List Nat → Option (Nat × Nat)
  | [] => some (1, 1)
  | [m] => some (m, 1)
  | [m, n] => some (m, n)
  | _ => none

/-- The matrices along the last two axes of two arrays that are joined at the second axis. -/
def matricesBeside {α : Type} (s t : Tensor α) : List (List (List α)) :=
  match s.shape with
  | [_, _, _] => List.zipWith (· ++ ·) (matrices s) (matrices t)
  | _ => matrices s ++ matrices t

/-- The rank of two arrays side by side. Arrays of more than two axes have to agree in all but
the second of them. -/
def rankBeside {f : FloatFormat} (s t : Tensor (Binary f)) : Except Fault Nat :=
  match columnsShape? s.shape, columnsShape? t.shape with
  | some (m, k), some (n, l) =>
    if m = n then
      let left := Tensor.chunks k m (s.entries.map (Binary.cast .double))
      let right := Tensor.chunks l m (t.entries.map (Binary.cast .double))
      rankOfRows (k + l) (List.zipWith (· ++ ·) left right)
    else .error .malformed
  | none, none =>
    if s.shape.eraseIdx 1 = t.shape.eraseIdx 1 then
      rankOfMany (volume s.shape + volume t.shape) (s.shape.getLastD 0)
        (matricesBeside (s.map (Binary.cast .double)) (t.map (Binary.cast .double)))
    else .error .malformed
  | _, _ => .error .malformed

def severalSquares (shape : List Nat) : Bool :=
  match shape.reverse with
  | n :: m :: _ :: _ => m == n
  | _ => false

/-- The least eigenvalue of an array, zero if it has no entries. Several square matrices have no
least eigenvalue in common. -/
def leastEigenvalue {f : FloatFormat} (t : Tensor (Binary f)) : Except Fault Double :=
  let t := t.map (Binary.cast .double)
  if t.size = 0 then .ok 0
  else
    match t.shape with
    | [m, n] =>
      if m = n then found (Routines.leastEigenvalue? t.rows) else .error .undefinedSpectrum
    | shape =>
      if severalSquares shape then do
        let _ ← (matrices t).mapM fun rows => found (Routines.leastEigenvalue? rows)
        .error .wrongKind
      else .error .undefinedSpectrum

end StandardForm.Spectrum
