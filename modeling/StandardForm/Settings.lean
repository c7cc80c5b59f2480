import StandardForm.Datum.Number
import StandardForm.Lookup

/-!
# Solver settings

Settings hold an iteration limit, two tolerances, two choices of method and the precision
that the tolerances belong to. They are built from fields that may be left out, and changed
by building them again with some fields replaced. A change of precision takes the tolerances
that it does not name back to the defaults of the new precision.
-/

namespace StandardForm

/-- The settings of a solver. The tolerances are numbers of the chosen precision, perhaps with
axes around them. -/
structure Settings where
  precision : Precision
  maxIter : Int
  tol : Nested precision.Entry
  tolG : Nested precision.Entry
  pivot : Pivot
  rule : Rule
  deriving DecidableEq

namespace Settings

/-- The fields of settings, each given or left out. -/
structure Fields where
  precision : Option Datum
  maxIter : Option Datum
  tol : Option Datum
  tolG : Option Datum
  pivot : Option Datum
  rule : Option Datum

def Fields.none : Fields := ⟨.none, .none, .none, .none, .none, .none⟩

def standardMaxIter : Int := 7777

def tolExponent : Precision → Nat
  | .standard => 26
  | .extended => 76

def tolGExponent : Precision → Nat
  | .standard => 33
  | .extended => 87

/-- A field of an enumeration with a default. -/
def choice {α : Type} [Vocabulary α] (field : String) (standard : α) :
    Option Datum → Except Fault α
  | none => .ok standard
  | some d => Vocabulary.coerce α field d

/-- The iteration limit: a positive integer. -/
def limit : Option Datum → Except Fault Int
  | none => .ok standardMaxIter
  | some d => do
    match ← d.wholeNumber with
    | none => .error (.notCount "max_iter" d)
    | some n => if n ≤ 0 then .error (.notPositive "max_iter") else .ok n

/-- A tolerance in a precision: a positive number, or the default if it is missing. -/
def tolerance (p : Precision) (field : String) (exponent : Nat) :
    Option Datum → Except Fault (Nested p.Entry)
  | none | some (.scalar .absent) => .ok ⟨.twoPowNeg p.format exponent, 0⟩
  | some d => do
    let x ← d.toNested p.format
    if 0 < x.value then .ok x else .error (.notPositive field)

/-- Build settings, checking the choices first, then the limit and the tolerances. -/
def build (fields : Fields) : Except Fault Settings := do
  let precision ← choice "precision" Precision.standard fields.precision
  let pivot ← choice "pivot" Pivot.column fields.pivot
  let rule ← choice "rule" Rule.dantzig fields.rule
  let maxIter ← limit fields.maxIter
  let tol ← tolerance precision "tol" (tolExponent precision) fields.tol
  let tolG ← tolerance precision "tol_g" (tolGExponent precision) fields.tolG
  return { precision, maxIter, tol, tolG, pivot, rule }

def standard (precision : Option Datum) : Except Fault Settings :=
  build { Fields.none with precision }

/-- The fields that rebuild given settings. -/
def toFields (s : Settings) : Fields where
  precision := some (.scalar (.member (.precision s.precision)))
  maxIter := some (.integer s.maxIter)
  tol := some (.ofNested s.tol)
  tolG := some (.ofNested s.tolG)
  pivot := some (.scalar (.member (.pivot s.pivot)))
  rule := some (.scalar (.member (.rule s.rule)))

/-- The fields of `changes`, and where they leave one out, those of `fields`. -/
def Fields.update (fields changes : Fields) : Fields where
  precision := changes.precision.or fields.precision
  maxIter := changes.maxIter.or fields.maxIter
  tol := changes.tol.or fields.tol
  tolG := changes.tolG.or fields.tolG
  pivot := changes.pivot.or fields.pivot
  rule := changes.rule.or fields.rule

/-- The fields without tolerances, so that these take their defaults. -/
def Fields.forgetTolerances (fields : Fields) : Fields :=
  { fields with tol := .none, tolG := .none }

/-- The name that settings have among the changes to them, so that no change can have it. -/
def ownName : String := "self"

/-- Change some fields. The new precision is looked at first; after it come changes that name
no field of settings (`others`), and then everything is checked anew. -/
def change (s : Settings) (changes : Fields) (others : List String) : Except Fault Settings := do
  if ownName ∈ others then .error .unknownField
  let precision ← choice "precision" s.precision changes.precision
  if others ≠ [] then .error .unknownField
  else
    let kept := if precision = s.precision then s.toFields else s.toFields.forgetTolerances
    build (kept.update changes)

/-- Equality of tolerances as numbers, whatever their precision and the axes around them. -/
def equalTolerances {p q : Precision} (x : Nested p.Entry) (y : Nested q.Entry) : Bool :=
  (x.value.cast .extended).equals (y.value.cast .extended)

def equals (a b : Settings) : Bool :=
  a.maxIter == b.maxIter && equalTolerances a.tol b.tol && equalTolerances a.tolG b.tolG
    && a.pivot == b.pivot && a.rule == b.rule && a.precision == b.precision

end Settings

end StandardForm
