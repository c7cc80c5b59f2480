import StandardForm.Datum.ArrayText
import StandardForm.Text.Quoted

/-!
# Data as messages show them

A message shows a datum in one of three ways. *Displayed*, it can be told what was given: text
is quoted, numbers of a fixed width and arrays name their type, members name their enumeration.
*Plain*, a single value is shown without any of this. *Inserted* into a sentence, a number of a
fixed width is shown as the 64-bit number that it is closest to; everything else is plain.
What stands inside a list is displayed in all three.
-/

namespace StandardForm

def bracketed (items : List String) : String := "[" ++ String.intercalate ", " items ++ "]"

/-- Texts between parentheses; one alone keeps a comma behind it. -/
def parenthesized : List String → String
  | [item] => "(" ++ item ++ ",)"
  | items => "(" ++ String.intercalate ", " items ++ ")"

/-- A number of a fixed width with the name of its type. -/
def Binary.display {f : FloatFormat} (x : Binary f) : String :=
  match f with
  | .single => "np.float32(" ++ x.shortest ++ ")"
  | .double => "np.float64(" ++ x.shortest ++ ")"
  | .extended => "np.longdouble(" ++ Text.quoted x.shortest ++ ")"

/-- A member of an enumeration with its written value. -/
def Member.display (m : Member) : String :=
  "<" ++ m.qualifiedName ++ ": " ++ Text.quoted m.value ++ ">"

namespace Scalar

def display : Scalar → String
  | absent => "None"
  | truth b => if b then "True" else "False"
  | integer n => toString n
  | real x => x.shortest
  | fixed _ x => x.display
  | word n => "np.int64(" ++ toString n ++ ")"
  | text s => Text.quoted s
  | member m => m.display

def plain : Scalar → String
  | fixed _ x => x.shortest
  | word n => toString n
  | text s => s
  | member m => m.qualifiedName
  | s => s.display

def inserted : Scalar → String
  | fixed _ x => (x.cast .double).shortest
  | s => s.plain

end Scalar

namespace NumberArray

/-- The name of the type of the entries, unless it is the one to be expected. -/
def typeName? : NumberArray → Option String
  | reals .single _ => some "float32"
  | reals .double _ => none
  | reals .extended _ => some "float128"
  | words _ => none

def typeName (a : NumberArray) : String :=
  a.typeName?.getD (match a with
    | reals .. => "float64"
    | words _ => "int64")

/-- What has to be said of an array besides its entries: its shape where the entries do not
tell it, and the type of the entries where it is not the one to be expected. -/
def remarks (a : NumberArray) : List String :=
  let empty := ArrayText.size a = 0
  (if (empty ∧ a.shape ≠ [0]) ∨ ArrayText.isAbridged a then
      ["shape=" ++ parenthesized (a.shape.map toString)]
    else [])
  ++ (if empty then ["dtype=" ++ a.typeName] else (a.typeName?.map ("dtype=" ++ ·)).toList)

def display (a : NumberArray) : String :=
  let opening := "array("
  let body := opening ++ ArrayText.bracketedEntries ", " opening.length 1 a
  match a.remarks with
  | [] => body ++ ")"
  | remarks =>
    let body := body ++ ","
    let rest := String.intercalate ", " remarks ++ ")"
    let lastLine := (body.toList.reverse.takeWhile (· ≠ '\n')).length
    let separator :=
      if ArrayText.lineWidth < lastLine + rest.length + 1 then
        "\n" ++ String.ofList (List.replicate opening.length ' ')
      else " "
    body ++ separator ++ rest

def plain (a : NumberArray) : String :=
  match a.shape, a.scalars.entries with
  | [], [s] => s.plain
  | _, _ => ArrayText.bracketedEntries " " 0 0 a

def inserted (a : NumberArray) : String :=
  match a.shape, a.scalars.entries with
  | [], [s] => s.inserted
  | _, _ => a.plain

end NumberArray

namespace Datum

mutual

def display : Datum → String
  | scalar s => s.display
  | list items => bracketed (displayAll items)
  | array a => a.display

def displayAll : List Datum → List String
  | [] => []
  | d :: ds => d.display :: displayAll ds

end

def plain : Datum → String
  | scalar s => s.plain
  | list items => bracketed (displayAll items)
  | array a => a.plain

def inserted : Datum → String
  | scalar s => s.inserted
  | array a => a.inserted
  | list items => bracketed (displayAll items)

end Datum

end StandardForm
