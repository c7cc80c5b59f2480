import StandardForm.Datum.Number

/-!
# Vectors and matrices out of data

Dimensions are data themselves: whatever equals a natural number serves as one, and it is
shown in messages as it was given. An array that passes has the demanded shape, which is part
of the type, so that nothing has to be checked again later.

An array need not be given: one that is filled with a single number has the shape that its
dimension demands, or none at all, and its entries are not made before it is known to fit.
-/

namespace StandardForm

namespace Datum

/-- The natural number that a dimension stands for. -/
def dimension (d : Datum) : Nat :=
  match d.naturalValue? with
  | .ok (some n) => n
  | _ => 0

theorem dimension_eq {d : Datum} {n : Nat} (h : d.naturalValue? = .ok (some n)) :
    d.dimension = n := by
  simp [dimension, h]

end Datum

/-- Whether a shape agrees with dimensions, compared axis by axis up to the first difference. -/
def fits : (expected : List Datum) → (shape : List Nat) → Except Fault Bool
  | [], [] => .ok true
  | d :: expected, n :: shape =>
    match d.naturalValue? with
    | .error e => .error e
    | .ok m => if m = some n then fits expected shape else .ok false
  | _, _ => .ok false

theorem shape_eq_of_fits {expected : List Datum} {shape : List Nat}
    (h : fits expected shape = .ok true) : shape = expected.map Datum.dimension := by
  induction expected generalizing shape with
  | nil => cases shape <;> simp_all [fits]
  | cons d expected ih =>
    cases shape with
    | nil => simp [fits] at h
    | cons n shape =>
      rw [fits] at h
      split at h
      · cases h
      · next m hd =>
        split at h
        · next hm => rw [List.map_cons, ← ih h, Datum.dimension_eq (hm ▸ hd)]
        · simp at h

/-- An array of a given shape. -/
abbrev Shaped (α : Type) (shape : List Nat) := { t : Tensor α // t.shape = shape }

/-- Refuse a shape other than the demanded one. -/
def requireShape (name : String) (expected : List Datum) (shape : List Nat) :
    Except Fault (PLift (shape = expected.map Datum.dimension)) :=
  match h : fits expected shape with
  | .error e => .error e
  | .ok true => .ok ⟨shape_eq_of_fits h⟩
  | .ok false => .error (.rejected (.dimensionMismatch name expected shape))

namespace Tensor

variable {α : Type}

/-- A matrix of one column as a vector; any other array is left alone. -/
def flattenColumn (t : Tensor α) : Tensor α :=
  match h : t.shape with
  | [m, 1] => ⟨[m], t.entries, by rw [t.length_entries, h]; rfl⟩
  | _ => t

/-- Refuse an array that does not have the demanded shape. -/
def require (name : String) (expected : List Datum) (t : Tensor α) :
    Except Fault (Shaped α (expected.map Datum.dimension)) := do
  let h ← requireShape name expected t.shape
  return ⟨t, h.down⟩

/-- The array of a given shape with equal entries. -/
def fill (shape : List Nat) (a : α) : Tensor α :=
  ⟨shape, List.replicate (volume shape) a, by simp⟩

end Tensor

namespace Datum

def maxLength : Int := (1 <<< 63 : Nat) - 1

/-- The integer that is meant as the length of an axis. -/
def axisLength : Datum → Except Fault Int
  | scalar (.integer n) | scalar (.word n) =>
    if maxLength < n then .error .malformed else .ok n
  | array (.words t) =>
    match t.shape, t.entries with
    | [], [n] => .ok n
    | _, _ => .error .wrongKind
  | _ => .error .wrongKind

/-- Lengths as a shape of 64-bit numbers, none of them below zero. -/
def shapeOfLengths (lengths : List Int) : Except Fault (List Nat) := do
  if lengths.any (· < 0) then .error .malformed
  let shape := lengths.map Int.toNat
  requireSize .double shape
  return shape

/-- What a datum stands for as a list of lengths: itself, or each of its items. The rows of a
matrix are none, and no more of them are listed than are too many. -/
def axes : Datum → List Datum
  | list items => items
  | scalar (.text s) => s.toList.map fun c => text c.toString
  | array a =>
    match a.shape with
    | [] => [array a]
    | [_] => a.scalars.entries.map scalar
    | n :: _ => List.replicate (Nat.min n (maxAxes + 1)) absent
  | d => [d]

def toShape (d : Datum) : Except Fault (List Nat) := do
  if maxAxes < d.axes.length then .error .malformed
  shapeOfLengths (← d.axes.mapM axisLength)

/-- The shape of a matrix with a given number of rows that is filled to a dimension. -/
def toRowsShape (rows : Nat) (d : Datum) : Except Fault (List Nat) := do
  shapeOfLengths [rows, ← d.axisLength]

variable {f : FloatFormat}

/-- A datum as a vector of `n` entries. A matrix of one column is a vector too. -/
def toVector (d : Datum) (f : FloatFormat) (name : String) (n : Datum) :
    Except Fault (Shaped (Binary f) [n.dimension]) := do
  let t ← d.toTensor f
  t.flattenColumn.require name [n]

def emptyRows (cols : Nat) : Tensor (Binary f) := ⟨[0, cols], [], by simp⟩

/-- A datum as a matrix of `rows` rows and `cols` columns. Where no rows are demanded, a
vector without entries will do. -/
def toMatrix (d : Datum) (f : FloatFormat) (name : String) (rows cols : Datum) :
    Except Fault (Shaped (Binary f) [rows.dimension, cols.dimension]) := do
  let t ← d.toTensor f
  if t.shape = [0] then
    if (← rows.naturalValue?) = some 0 then
      let shape ← shapeOfLengths [0, ← cols.axisLength]
      requireSize f shape
      (emptyRows (shape.getD 1 0)).require name [rows, cols]
    else t.require name [rows, cols]
  else t.require name [rows, cols]

end Datum

/-- Where an array comes from: it is given, or filled with one number. -/
inductive Source
  | given (d : Datum)
  | filled (shape : List Nat) (x : Double)

namespace Source

/-- A given array, or a vector filled to a dimension. -/
def vector (d : Option Datum) (n : Datum) (x : Double) : Except Fault Source :=
  match d with
  | some d => .ok (given d)
  | none => n.toShape.map (filled · x)

/-- A given array, or a matrix of `rows` rows filled to a dimension. -/
def matrix (d : Option Datum) (rows : Nat) (n : Datum) (x : Double) : Except Fault Source :=
  match d with
  | some d => .ok (given d)
  | none => (n.toRowsShape rows).map (filled · x)

def size : Source → Except Fault Nat
  | given d => d.vectorLength
  | filled shape _ => .ok (volume shape)

variable (f : FloatFormat) (name : String)

def fillTo (shape : List Nat) (x : Double) (expected : List Datum) :
    Except Fault (Shaped (Binary f) (expected.map Datum.dimension)) := do
  Datum.requireSize f shape
  let h ← requireShape name expected shape
  return ⟨Tensor.fill shape (x.cast f), h.down⟩

/-- The vector of `n` entries. -/
def toVector (s : Source) (n : Datum) : Except Fault (Shaped (Binary f) [n.dimension]) :=
  match s with
  | given d => d.toVector f name n
  | filled shape x => fillTo f name shape x [n]

/-- The matrix of `rows` rows and `cols` columns. -/
def toMatrix (s : Source) (rows cols : Datum) :
    Except Fault (Shaped (Binary f) [rows.dimension, cols.dimension]) :=
  match s with
  | given d => d.toMatrix f name rows cols
  | filled shape x => fillTo f name shape x [rows, cols]

end Source

end StandardForm
