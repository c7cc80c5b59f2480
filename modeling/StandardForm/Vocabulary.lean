import StandardForm.Binary.Conversion

/-!
# The words of the library

Four small enumerations describe solver states, storage precision, row selection and the
simplex rule. Each member has a name, which is a constant's name, and a value, which is how
the member is written as text. What the four have in common is stated once, as a class.
-/

namespace StandardForm

/-- The state of a variable within its bounds or of an inequality row. -/
inductive Status
  | inside
  | lower
  | upper
  | slack
  | edge
  deriving DecidableEq

namespace Status

/-- The variable is held at one end of its range. -/
def isBound : Status → Bool
  | lower | upper => true
  | _ => false

def isInequality : Status → Bool
  | slack | edge => true
  | _ => false

def isActive : Status → Bool
  | lower | upper | edge => true
  | _ => false

end Status

/-- The precision in which a problem is stored. -/
inductive Precision
  | standard
  | extended
  deriving DecidableEq

namespace Precision

def format : Precision → FloatFormat
  | standard => .double
  | extended => .extended

abbrev Entry (p : Precision) := Binary p.format

/-- The distance from one to the next larger number. -/
def epsilon (p : Precision) : p.Entry := .twoPowNeg p.format (p.format.precision - 1)

end Precision

/-- How independent rows are selected: by elimination, or by orthogonal projection. -/
inductive Pivot
  | column
  | row
  deriving DecidableEq

/-- The rule that chooses the entering variable of the simplex method. -/
inductive Rule
  | dantzig
  | maxImprovement
  deriving DecidableEq

/-- A member of one of the enumerations. -/
inductive Member
  | status (s : Status)
  | precision (p : Precision)
  | pivot (p : Pivot)
  | rule (r : Rule)
  deriving DecidableEq

/-- A finite enumeration with a name and a written value for each member. -/
class Vocabulary (α : Type) where
  title : String
  members : List α
  name : α → String
  value : α → String
  toMember : α → Member
  ofMember? : Member → Option α

instance : Vocabulary Status where
  title := "Status"
  members := [.inside, .lower, .upper, .slack, .edge]
  name
    | .inside => "IN"
    | .lower => "DN"
    | .upper => "UP"
    | .slack => "OE"
    | .edge => "EO"
  value
    | .inside => "IN"
    | .lower => "DN"
    | .upper => "UP"
    | .slack => "OE"
    | .edge => "EO"
  toMember := .status
  ofMember?
    | .status s => some s
    | _ => none

instance : Vocabulary Precision where
  title := "Precision"
  members := [.standard, .extended]
  name
    | .standard => "STANDARD"
    | .extended => "EXTENDED"
  value
    | .standard => "standard"
    | .extended => "extended"
  toMember := .precision
  ofMember?
    | .precision p => some p
    | _ => none

instance : Vocabulary Pivot where
  title := "Pivot"
  members := [.column, .row]
  name
    | .column => "COLUMN"
    | .row => "ROW"
  value
    | .column => "column"
    | .row => "row"
  toMember := .pivot
  ofMember?
    | .pivot p => some p
    | _ => none

instance : Vocabulary Rule where
  title := "Rule"
  members := [.dantzig, .maxImprovement]
  name
    | .dantzig => "DANTZIG"
    | .maxImprovement => "MAX_IMPROVEMENT"
  value
    | .dantzig => "Dantzig"
    | .maxImprovement => "maxImprovement"
  toMember := .rule
  ofMember?
    | .rule r => some r
    | _ => none

namespace Vocabulary

variable {α : Type} [Vocabulary α]

def qualifiedName (a : α) : String := title α ++ "." ++ name a

end Vocabulary

namespace Member

def qualifiedName : Member → String
  | status s => Vocabulary.qualifiedName s
  | precision p => Vocabulary.qualifiedName p
  | pivot p => Vocabulary.qualifiedName p
  | rule r => Vocabulary.qualifiedName r

def value : Member → String
  | status s => Vocabulary.value s
  | precision p => Vocabulary.value p
  | pivot p => Vocabulary.value p
  | rule r => Vocabulary.value r

end Member

end StandardForm
