import StandardForm.Fault
import StandardForm.Text.Numeral

/-!
# Numbers out of data

A datum becomes a number of a format, an integer or a whole array. Text is read with the
grammar of the format: the strict one where 64 significant bits are asked for, the liberal
one elsewhere. A missing value is a NaN inside an array but is no number elsewhere.
-/

namespace StandardForm

namespace Scalar

/-- The number that a text denotes in a format. -/
def readText (f : FloatFormat) (s : String) : Option (Binary f) :=
  match f with
  | .extended => (Text.strictNumeral? s).map (·.toBinary .extended)
  | f => (Text.numeral? s).map (·.toBinary f)

/-- An integer rounded to a format, if it does not exceed every finite number. -/
def ofInteger (f : FloatFormat) (n : Int) : Except Fault (Binary f) :=
  let x := Binary.ofInt f n
  if x.isInfinite then .error .outOfRange else .ok x

/-- An entry of an array in a given format. -/
def toBinary (f : FloatFormat) : Scalar → Except Fault (Binary f)
  | absent => .ok .nan
  | truth b => .ok (Binary.ofInt f b.toNat)
  | integer n => ofInteger f n
  | real x => .ok (x.cast f)
  | fixed _ x => .ok (x.cast f)
  | word n => .ok (Binary.ofInt f n)
  | text s =>
    match readText f s with
    | some x => .ok x
    | none => .error .malformed
  | member _ => .error .wrongKind

/-- An entry of an array of 32-bit numbers. Whatever has no width of its own passes through
64 bits. -/
def toSingle : Scalar → Except Fault (Binary .single)
  | fixed _ x => .ok (x.cast .single)
  | word n => .ok (Binary.ofInt .single n)
  | s => (s.toBinary .double).map (·.cast .single)

/-- A real number of 64 bits. Unlike an entry of an array it cannot be missing. -/
def toReal : Scalar → Except Fault Double
  | absent => .error .wrongKind
  | s => s.toBinary .double

/-- The integer part of a finite number, toward zero. -/
def truncateNumber {f : FloatFormat} (x : Binary f) : Except Fault Int :=
  match x.truncate? with
  | some n => .ok n
  | none => .error (if x.isNaN then .malformed else .outOfRange)

/-- The integer that a value stands for, its fraction dropped. -/
def toInt : Scalar → Except Fault Int
  | truth b => .ok b.toNat
  | integer n => .ok n
  | word n => .ok n
  | real x => truncateNumber x
  | fixed _ x => truncateNumber x
  | text s =>
    match Text.integer? s with
    | some n => .ok n
    | none => .error .malformed
  | absent => .error .wrongKind
  | member _ => .error .wrongKind

def leastWord : Int := -(1 <<< 63 : Nat)

def fitsWord (n : Int) : Bool := leastWord ≤ n && n < -leastWord

/-- An entry of an array of 64-bit integers, its fraction dropped. A floating-point number with
a width of its own that does not fit becomes the least integer, all else that does not is
refused. -/
def toWord : Scalar → Except Fault Int
  | fixed _ x => .ok ((x.truncate?.filter fitsWord).getD leastWord)
  | s => do
    let n ← s.toInt
    if fitsWord n then return n else .error .outOfRange

/-- The integer that a value is, numerically. Truth values and text are none, even where they
stand for one. -/
def wholeNumber? : Scalar → Option Int
  | integer n => some n
  | word n => some n
  | real x => x.toInt?
  | fixed _ x => x.toInt?
  | _ => none

/-- The integer that a value equals, numerically; a truth value equals zero or one. -/
def equalInt? : Scalar → Option Int
  | truth b => some b.toNat
  | s => s.wholeNumber?

/-- Whether a value counts as true: a number other than zero, a text that is not empty, a
member of an enumeration. -/
def countsAsTrue : Scalar → Bool
  | absent => false
  | truth b => b
  | integer n => n ≠ 0
  | word n => n ≠ 0
  | real x => !x.isZero
  | fixed _ x => !x.isZero
  | text s => s ≠ ""
  | member _ => true

end Scalar

namespace Datum

def onlyEntry (a : NumberArray) : Except Fault Scalar :=
  match a.scalars.entries with
  | [s] => .ok s
  | _ => .error .ambiguous

/-- Whether a datum counts as true. A list does unless it is empty; an array has to have one
entry, which decides. -/
def countsAsTrue : Datum → Except Fault Bool
  | scalar s => .ok s.countsAsTrue
  | list items => .ok !items.isEmpty
  | array a => (onlyEntry a).map Scalar.countsAsTrue

/-- The single value of a datum that has one. -/
def toScalar (d : Datum) : Except Fault Scalar :=
  match d.toScalar? with
  | some s => .ok s
  | none => .error .wrongKind

/-- The integer that a datum stands for, its fraction dropped. -/
def toInt (d : Datum) : Except Fault Int := do
  let s ← d.toScalar
  s.toInt

def requireWritable (n : Int) : Except Fault Unit :=
  if Nat.pow 10 Text.integerDigits ≤ n.natAbs then .error .malformed else .ok ()

/-- Require that an integer can be compared with a value. A number that has a width of its own is
compared in writing. -/
def requireComparable (s : Scalar) (n : Int) : Except Fault Unit :=
  match s with
  | .fixed .. => requireWritable n
  | _ => .ok ()

/-- The integer that a datum is; `none` when it stands for a number or a text that is not an
integer, a fault when it stands for neither. -/
def wholeNumber (d : Datum) : Except Fault (Option Int) := do
  let s ← d.toScalar
  requireComparable s (← s.toInt)
  return s.wholeNumber?

/-- The integer that a datum equals, numerically. Of an array the only entry is compared. -/
def equalInt? : Datum → Except Fault (Option Int)
  | scalar s => .ok s.equalInt?
  | list _ => .ok none
  | array a => (onlyEntry a).map Scalar.equalInt?

/-- The natural number that a datum equals, numerically. -/
def naturalValue? (d : Datum) : Except Fault (Option Nat) :=
  d.equalInt?.map (·.bind Int.toNat?)

/-- The entries of a datum, lists of one level having one shape. -/
def elements (d : Datum) : Except Fault (Tensor Scalar) :=
  match d.elements? with
  | some t => if maxAxes < t.shape.length then .error .malformed else .ok t
  | none => .error .malformed

def maxBytes : Nat := (1 <<< 63) - 1

/-- Require that an array of a shape can exist, its axes without entries left aside. -/
def requireSize (f : FloatFormat) (shape : List Nat) : Except Fault Unit :=
  if maxBytes < f.bytes * volume (shape.filter (· ≠ 0)) then .error .malformed else .ok ()

def toTensor (f : FloatFormat) (d : Datum) : Except Fault (Tensor (Binary f)) := do
  let t ← d.elements
  requireSize f t.shape
  t.traverse (Scalar.toBinary f)

/-- A datum as a single number of a format, and the number of axes that it is given with. -/
def toNested (f : FloatFormat) (d : Datum) : Except Fault (Nested (Binary f)) := do
  let t ← d.toTensor f
  match t.entries with
  | [x] => return ⟨x, t.shape.length⟩
  | _ => .error .ambiguous

/-- A datum as a real number of 64 bits. -/
def toReal (d : Datum) : Except Fault Double := do
  let s ← d.toScalar
  s.toReal

def vectorLength (d : Datum) : Except Fault Nat := d.elements.map Tensor.size

end Datum

end StandardForm
