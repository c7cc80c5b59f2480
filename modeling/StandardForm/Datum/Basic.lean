import StandardForm.Tensor.Basic
import StandardForm.Vocabulary

/-!
# Data as it is handed in

Problems, settings and events are described by data of no fixed type: numbers of several
widths, text, members of the enumerations, lists nested in any way, and arrays. Nothing is
assumed of a datum before it is converted, and what a conversion rejects is said by its cause.

A real number without a width of its own takes the width of whatever it meets; a number of a
fixed format keeps its own. The two are told apart because they compare and print differently.
-/

namespace StandardForm

/-- A single value. -/
inductive Scalar
  | absent
  | truth (b : Bool)
  | integer (n : Int)
  | real (x : Double)
  | fixed (f : FloatFormat) (x : Binary f)
  | word (n : Int)
  | text (s : String)
  | member (m : Member)
  deriving DecidableEq

/-- An array of numbers, all of one floating-point format or all 64-bit integers. -/
inductive NumberArray
  | reals (f : FloatFormat) (t : Tensor (Binary f))
  | words (t : Tensor Int)

namespace NumberArray

def scalars : NumberArray → Tensor Scalar
  | reals f t => t.map (Scalar.fixed f)
  | words t => t.map Scalar.word

def shape : NumberArray → List Nat
  | reals _ t => t.shape
  | words t => t.shape

theorem shape_scalars (a : NumberArray) : a.scalars.shape = a.shape := by
  cases a <;> rfl

end NumberArray

/-- A value and the number of axes, each of one entry, that it is given with: none for a single
value, one for the only entry of a vector. -/
structure Nested (α : Type) where
  value : α
  depth : Nat
  deriving DecidableEq

def Nested.toTensor {α : Type} (x : Nested α) : Tensor α :=
  ⟨List.replicate x.depth 1, [x.value], by
    induction x.depth with
    | zero => rfl
    | succ n ih => simpa [List.replicate_succ] using ih⟩

/-- A value, a list of data or an array. -/
inductive Datum
  | scalar (s : Scalar)
  | list (items : List Datum)
  | array (a : NumberArray)

namespace Datum

abbrev absent : Datum := scalar .absent

abbrev integer (n : Int) : Datum := scalar (.integer n)

abbrev text (s : String) : Datum := scalar (.text s)

def ofTensor {f : FloatFormat} (t : Tensor (Binary f)) : Datum := array (.reals f t)

/-- A number, or an array of that number alone. -/
def ofNested {f : FloatFormat} (x : Nested (Binary f)) : Datum :=
  if x.depth = 0 then scalar (.fixed f x.value) else ofTensor x.toTensor

/-- An array without axes is as good as its entry. -/
def toScalar? : Datum → Option Scalar
  | scalar s => some s
  | list _ => none
  | array a => if a.shape = [] then a.scalars.entries.head? else none

mutual

/-- The entries of a datum and its shape, one axis for each level of nesting; `none` when
lists of one level differ in shape. -/
def elements? : Datum → Option (Tensor Scalar)
  | scalar s => some (.scalar s)
  | array a => some a.scalars
  | list items => (elementsOfAll? items).bind Tensor.stack?

/-- The entries of each datum of a list. -/
def elementsOfAll? : List Datum → Option (List (Tensor Scalar))
  | [] => some []
  | d :: ds =>
    match elements? d, elementsOfAll? ds with
    | some t, some ts => some (t :: ts)
    | _, _ => none

end

end Datum

def maxAxes : Nat := 64

end StandardForm
