import StandardForm.Datum.Number

/-!
# Solver events

An event says that a variable or a row went from one state to another at some value of the
path parameter. The parameter keeps its width if it has one and is a plain real number
otherwise; comparison brings the narrower side to the width of the wider one, and a plain
number to the width of the other side.
-/

namespace StandardForm

inductive Parameter
  | real (x : Double)
  | fixed (f : FloatFormat) (x : Binary f)
  deriving DecidableEq

namespace Parameter

/-- Numeric equality of two numbers of fixed width, in a width that holds both. -/
def equalsFixed {f g : FloatFormat} (x : Binary f) (y : Binary g) : Bool :=
  (x.cast .extended).equals (y.cast .extended)

/-- Numeric equality, in a width that the two sides agree on. -/
def equals : Parameter → Parameter → Bool
  | real x, real y => x.equals y
  | real x, fixed g y => (x.cast g).equals y
  | fixed f x, real y => x.equals (y.cast f)
  | fixed _ x, fixed _ y => equalsFixed x y

/-- A parameter that has a width keeps it. -/
def ofDatum : Datum → Except Fault Parameter
  | .scalar (.fixed f x) => .ok (.fixed f x)
  | d => d.toReal.map .real

end Parameter

/-- A change of state of the variable or row with index `id`. -/
structure Event where
  fromStatus : Status
  toStatus : Status
  id : Int
  L : Parameter
  deriving DecidableEq

namespace Event

/-- A field that has to be a status already; its written value is not enough. -/
def requireStatus (field : String) : Datum → Except Fault Status
  | .scalar (.member (.status s)) => .ok s
  | d => .error (.notStatus field d)

/-- Build an event, checking the two states, then the index, then the parameter. -/
def build (fromStatus toStatus id L : Datum) : Except Fault Event := do
  let source ← requireStatus "from_status" fromStatus
  let target ← requireStatus "to_status" toStatus
  match ← id.wholeNumber with
  | none => .error (.notIndex id)
  | some i => return ⟨source, target, i, ← Parameter.ofDatum L⟩

/-- Equality of events. The parameters are compared as numbers, except that an event is equal
to itself (`same`) even where its parameter is a NaN. -/
def equals (same : Bool) (a b : Event) : Bool :=
  a.fromStatus == b.fromStatus && a.toStatus == b.toStatus && a.id == b.id
    && (same || a.L.equals b.L)

end Event

end StandardForm
