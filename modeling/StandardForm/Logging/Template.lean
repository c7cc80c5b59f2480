import StandardForm.Logging.Record
import StandardForm.Text.Alphanumeric
import StandardForm.Text.Class

/-!
# Line templates

A template is text with fields. A field is a percent sign, a name in parentheses, flags, a
width, a precision and a letter that says how the value is written; two percent signs stand
for one. The first field may have no name and stands for the whole record then. Whether a template
is accepted depends only on whether a complete field occurs anywhere in it, so some accepted
templates still cannot be filled in.
-/

namespace StandardForm.Logging

def isFlag (c : Char) : Bool := "#0+ -".toList.contains c

def isNameChar (c : Char) : Bool := c == '_' || Text.isAlphanumeric c

/-- The letters that a complete field may end with: the usual ones in either case, and three
letters that are taken for the i and the s. -/
def isFieldLetter (c : Char) : Bool :=
  "diouxefgcrsa%".toList.contains c.toLower || "İıſ".toList.contains c

def isDigit (c : Char) : Bool := (Text.digitValue? c).isSome

/-- The rest behind a star or a run of digits, if one of them is there. -/
def skipAmount? : List Char → Option (List Char)
  | '*' :: cs => some cs
  | cs =>
    if cs.takeWhile isDigit = [] then none else some (cs.dropWhile isDigit)

/-- The rest behind a width and a precision, both of which may be left out. -/
def skipSizes (cs : List Char) : List Char :=
  let cs := (skipAmount? cs).getD cs
  match cs with
  | '.' :: rest => (skipAmount? rest).getD cs
  | _ => cs

def startsField : List Char → Bool
  | '%' :: '(' :: cs =>
    let name := cs.takeWhile isNameChar
    match cs.dropWhile isNameChar with
    | ')' :: rest =>
      !name.isEmpty && match skipSizes (rest.dropWhile isFlag) with
        | letter :: _ => isFieldLetter letter
        | [] => false
    | _ => false
  | _ => false

def hasField : List Char → Bool
  | [] => false
  | c :: cs => startsField (c :: cs) || hasField cs

/-- The largest width or precision that a field may ask for. -/
def mostPlaces : Nat := (1 <<< 31) - 1

/-- A number in ASCII digits, zero if there are none, and the rest. -/
def takeAmount? (cs : List Char) : Option (Nat × List Char) :=
  let n := Nat.ofDigitChars 10 (cs.takeWhile Char.isDigit) 0
  if mostPlaces < n then none else some (n, cs.dropWhile Char.isDigit)

/-- The precision, if there is one, and the rest. -/
def takePrecision? : List Char → Option (Option Nat × List Char)
  | '.' :: cs => (takeAmount? cs).map fun (n, rest) => (some n, rest)
  | cs => some (none, cs)

/-- The rest behind a letter for the size of a number, which has no effect. -/
def skipSize : List Char → List Char
  | 'h' :: cs | 'l' :: cs | 'L' :: cs => cs
  | cs => cs

/-- The conversion and the letter of a field, and the rest behind it. -/
def takeConversion? (cs : List Char) : Option (Conversion × Char × List Char) := do
  let flags := cs.takeWhile isFlag
  let (width, rest) ← takeAmount? (cs.dropWhile isFlag)
  let (precision, rest) ← takePrecision? rest
  match skipSize rest with
  | letter :: rest =>
    some ({
      left := flags.contains '-', plus := flags.contains '+', blank := flags.contains ' '
      zeros := flags.contains '0', marked := flags.contains '#', width, precision }, letter, rest)
  | [] => none

/-- A part of a template: a character, a field or the whole record. -/
inductive Piece
  | plain (c : Char)
  | field (name : String) (c : Conversion) (letter : Char)
  | record (c : Conversion) (letter : Char)

/-- The parts of a template; `none` where a field is not complete, or has no name although it is
not the first. Each step consumes at least one character. -/
def piecesFrom? : (steps : Nat) → (first : Bool) → List Char → Option (List Piece)
  | 0, _, _ => some []
  | _ + 1, _, [] => some []
  | steps + 1, first, '%' :: '%' :: cs => (piecesFrom? steps first cs).map (.plain '%' :: ·)
  | steps + 1, _, '%' :: '(' :: cs => do
    let name := String.ofList (cs.takeWhile (· ≠ ')'))
    let (conversion, letter, rest) ← takeConversion? ((cs.dropWhile (· ≠ ')')).drop 1)
    (piecesFrom? steps false rest).map (.field name conversion letter :: ·)
  | steps + 1, first, '%' :: cs =>
    if first then do
      let (conversion, letter, rest) ← takeConversion? cs
      (piecesFrom? steps false rest).map (.record conversion letter :: ·)
    else none
  | steps + 1, first, c :: cs => (piecesFrom? steps first cs).map (.plain c :: ·)

def pieces? (template : String) : Option (List Piece) :=
  piecesFrom? template.length true template.toList

/-- Whether a template asks for the time, be it in a field or not. -/
def usesTime : List Char → Bool
  | [] => false
  | c :: cs => ("%(" ++ timeField ++ ")").toList.isPrefixOf (c :: cs) || usesTime cs

def Piece.write? (fs : List (String × FieldValue)) (record : FieldValue) : Piece → Option String
  | plain c => some c.toString
  | field name c letter => fs.lookup name >>= c.write? letter
  | .record c letter => c.write? letter record

def fill (fs : List (String × FieldValue)) (template : String) : Option String := do
  let pieces ← pieces? template
  let shown := if usesTime template.toList then fs else fs.filter (·.1 ≠ timeField)
  let parts ← pieces.mapM (·.write? fs (.object (displayFields shown)))
  return String.join parts

end StandardForm.Logging
