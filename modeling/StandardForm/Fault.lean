import StandardForm.Rejection

/-!
# What can go wrong

A call fails for one of three reasons: a datum cannot be converted, a datum is not one of the
values that its field admits, or a problem is rejected. Only the last two come with a message;
a conversion says its cause and nothing else.
-/

namespace StandardForm

/-- Why a call failed. -/
inductive Fault
  /-- A datum has no numeric meaning at all. -/
  | wrongKind
  /-- A datum of the right kind cannot be read. -/
  | malformed
  /-- An array stands where one value is needed, and it has none or several. -/
  | ambiguous
  /-- A number is too large for where it is to go. -/
  | outOfRange
  /-- An array without axes stands where rows are needed. -/
  | missingAxis
  /-- The singular values or eigenvalues of a matrix are not defined. -/
  | undefinedSpectrum
  /-- A change names a field that does not exist. -/
  | unknownField
  /-- A field of an event that has to be a status is something else. -/
  | notStatus (field : String) (given : Datum)
  /-- A datum is not an integer where an index is needed. -/
  | notIndex (given : Datum)
  /-- A datum is not an integer where a count is needed. -/
  | notCount (field : String) (given : Datum)
  | notPositive (field : String)
  /-- A datum is not a member of an enumeration. -/
  | notMember (title : String) (given : Datum)
  /-- A setting is none of its supported values. -/
  | unsupported (field : String) (given : Datum) (choices : List String)
  | rejected (r : Rejection)

namespace Fault

/-- What is said about a fault, if anything is. -/
def message? : Fault → Option String
  | wrongKind | malformed | ambiguous | outOfRange | missingAxis | undefinedSpectrum
  | unknownField => none
  | notStatus field given => some (field ++ " must be a Status, got " ++ given.display)
  | notIndex given => some ("id must be an integer index, got " ++ given.display)
  | notCount field given => some (field ++ " must be an integer, got " ++ given.display)
  | notPositive field => some (field ++ " must be positive.")
  | notMember title given => some (given.display ++ " is not a valid " ++ title)
  | unsupported field given choices =>
    some ("Unsupported " ++ field ++ " " ++ given.display ++ ". Supported values: "
      ++ bracketed (choices.map Text.quoted))
  | rejected r => some r.message

end Fault

end StandardForm
