import StandardForm.Datum.Number
import StandardForm.Text.Uppercase

/-!
# Members of enumerations out of data

An exact lookup accepts a member itself or its written value. Settings are more lenient and
also accept a text whose upper-casing is the name of the member. An array is compared with a
value as one, which takes an only entry.
-/

namespace StandardForm

namespace Vocabulary

variable {α : Type} [Vocabulary α]

def ofValue? (α : Type) [Vocabulary α] (s : String) : Option α :=
  (members (α := α)).find? (value · == s)

/-- The member found for a single value by `find?`; anything else is the given fault. -/
def resolve {α : Type} (find? : Scalar → Option α) (fault : Fault) : Datum → Except Fault α
  | .scalar s =>
    match find? s with
    | some a => .ok a
    | none => .error fault
  | .list _ => .error fault
  | .array a => do
    let _ ← Datum.onlyEntry a
    .error fault

/-- The member that a datum is or whose written value it is. -/
def lookup (α : Type) [Vocabulary α] (d : Datum) : Except Fault α :=
  resolve (fun
    | .member m => ofMember? m
    | .text s => ofValue? α s
    | _ => none) (.notMember (title α) d) d

/-- The member that a setting names, by itself, by its value or by its name in any case. -/
def coerce (α : Type) [Vocabulary α] (field : String) (d : Datum) : Except Fault α :=
  resolve (fun
    | .member m => ofMember? m
    | .text s => (members (α := α)).find? fun a => value a == s || name a == Text.upper s
    | _ => none) (.unsupported field d ((members (α := α)).map value)) d

end Vocabulary

/-- The method that a datum asks for: text has to be its exact value, and whatever else is
not the member for projection means elimination. -/
def Pivot.ofDatum : Datum → Except Fault Pivot
  | .scalar (.text s) => Vocabulary.lookup Pivot (.text s)
  | .scalar (.member (.pivot .row)) => .ok .row
  | _ => .ok .column

end StandardForm
