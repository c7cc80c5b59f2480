import StandardForm.Binary.Conversion
import StandardForm.Decimal.Scientific
import StandardForm.Decimal.Shortest
import StandardForm.Logging.Level
import StandardForm.Text.Quoted

/-!
# Values in the fields of a template

A field prescribes how a value is written: a letter says in which form, flags, a width and a
precision say how it is filled up. Text can be shown as it is or quoted, and a level or another
integer also in one of three bases, as a real number or as a character. A real number can be cut to
an integer, and an object only be shown. Where the letter does not suit the value there is no text.
-/

namespace StandardForm.Logging

abbrev FiniteDouble := { x : Double // x.isFinite = true }

/-- What a template can show of a record. An object has only the text that it shows itself by. -/
inductive FieldValue
  | text (s : String)
  | level (l : Level)
  | integer (n : Int)
  | real (x : FiniteDouble)
  | object (shown : String)

/-- The width, the precision and the flags of a field. -/
structure Conversion where
  left : Bool
  plus : Bool
  blank : Bool
  zeros : Bool
  marked : Bool
  width : Nat
  precision : Option Nat

namespace Conversion

/-- Text filled up to the width. -/
def pad (c : Conversion) (s : String) : String :=
  let fill := String.ofList (List.replicate (c.width - s.length) ' ')
  if c.left then s ++ fill else fill ++ s

/-- Text cut to the precision and filled up to the width. -/
def writeText (c : Conversion) (s : String) : String :=
  c.pad (match c.precision with
    | some k => String.ofList (s.toList.take k)
    | none => s)

/-- A number with its sign and what is to stand before its digits; zeros between the two and the
digits fill up the width. -/
def writeSigned (c : Conversion) (negative : Bool) (mark digits : String) : String :=
  let sign := if negative then "-" else if c.plus then "+" else if c.blank then " " else ""
  let before := sign ++ mark
  let zeros :=
    if c.zeros && !c.left then
      String.ofList (List.replicate (c.width - (before ++ digits).length) '0')
    else ""
  c.pad (before ++ zeros ++ digits)

/-- An integer in a base; the precision is the least number of digits. -/
def writeInteger (c : Conversion) (base : Nat) (mark : String) (n : Int) : String :=
  let ds := Nat.toDigits base n.natAbs
  let zeros := List.replicate (c.precision.getD 1 - ds.length) '0'
  c.writeSigned (n < 0) (if c.marked then mark else "") (String.ofList (zeros ++ ds))

/-- The number of places of a real number unless a precision is given. -/
def standardPlaces : Nat := 6

/-- The digits behind a point. The point is left out where no digit follows it, unless it is
asked for. -/
def fraction (c : Conversion) (digits : List Char) : String :=
  if digits = [] ∧ !c.marked then "" else "." ++ String.ofList digits

def placeDigits (places n : Nat) : List Char :=
  if places = 0 then [] else (Decimal.padded places n).toList

/-- A fraction with a fixed number of places. -/
def fixedText (c : Conversion) (num den : Nat) : String :=
  let places := c.precision.getD standardPlaces
  let unit := Nat.pow 10 places
  let n := roundHalfEven (num * unit) den
  toString (n / unit) ++ c.fraction (placeDigits places (n % unit))

/-- A fraction rounded to `places + 1` digits, all of which are zero for zero. -/
def significant (places num den : Nat) : Decimal.Digits :=
  if num = 0 then ⟨0, -places⟩ else Decimal.significant places num den

/-- Digits with one of them before the point, and a power of ten. -/
def powerText (c : Conversion) (digits : List Char) (power : Int) : String :=
  String.ofList (digits.take 1) ++ c.fraction (digits.drop 1) ++ Decimal.exponentText power

/-- A fraction with a power of ten and a fixed number of places. -/
def scientificText (c : Conversion) (num den : Nat) : String :=
  let places := c.precision.getD standardPlaces
  let ds := significant places num den
  c.powerText (placeDigits (places + 1) ds.digits) (ds.exponent + places)

/-- The least power of ten that is not written as one. -/
def leastPower : Int := -4

/-- A fraction to a number of significant digits, with a power of ten only if it is large or small;
zeros at the end are shown only if they are asked for. -/
def generalText (c : Conversion) (num den : Nat) : String :=
  let count := Nat.max 1 (c.precision.getD standardPlaces)
  let ds := significant (count - 1) num den
  let power := ds.exponent + (count - 1 : Nat)
  let shown (digits : List Char) := if c.marked then digits else Decimal.trimZeros digits
  if leastPower ≤ power ∧ power < count then
    let places := ((count : Int) - 1 - power).toNat
    let unit := Nat.pow 10 places
    toString (ds.digits / unit) ++ c.fraction (shown (placeDigits places (ds.digits % unit)))
  else c.powerText (shown (placeDigits count ds.digits)) power

/-- A finite number in one of the forms above. -/
def writeFraction? (c : Conversion) (write : Nat → Nat → String) : Double → Option String
  | .nan => none
  | .num s r =>
    if r.val = FloatFormat.double.top then none
    else some (c.writeSigned s "" (write (FloatFormat.double.units r.val) FloatFormat.double.one))

def character? (n : Int) : Option String :=
  if 0 ≤ n ∧ n.toNat.isValidChar then some (Char.ofNat n.toNat).toString else none

def large (s : String) : String := String.ofList (s.toList.map Char.toUpper)

def writeText? (c : Conversion) (s : String) : (letter : Char) → Option String
  | 's' => some (c.writeText s)
  | 'r' => some (c.writeText (Text.quoted s))
  | 'a' => some (c.writeText (Text.quotedAscii s))
  | 'c' => if s.length = 1 then some (c.pad s) else none
  | _ => none

/-- A number in the form of a real number that a letter stands for. -/
def writeReal? (c : Conversion) (x : Double) : (letter : Char) → Option String
  | 'f' | 'F' => c.writeFraction? c.fixedText x
  | 'e' => c.writeFraction? c.scientificText x
  | 'E' => (c.writeFraction? c.scientificText x).map large
  | 'g' => c.writeFraction? c.generalText x
  | 'G' => (c.writeFraction? c.generalText x).map large
  | _ => none

/-- An integer, shown in its own way, in the form that a letter stands for. -/
def writeInteger? (c : Conversion) (shown : String) (n : Int) : (letter : Char) → Option String
  | 's' | 'r' | 'a' => some (c.writeText shown)
  | 'd' | 'i' | 'u' => some (c.writeInteger 10 "" n)
  | 'o' => some (c.writeInteger 8 "0o" n)
  | 'x' => some (c.writeInteger 16 "0x" n)
  | 'X' => some (large (c.writeInteger 16 "0x" n))
  | 'c' => (character? n).map c.pad
  | letter => c.writeReal? (.ofInt .double n) letter

/-- A number that need not be an integer in the form that a letter stands for. -/
def writeDouble? (c : Conversion) (x : Double) : (letter : Char) → Option String
  | 's' | 'r' | 'a' => some (c.writeText x.shortest)
  | 'd' | 'i' | 'u' => x.truncate?.map (c.writeInteger 10 "")
  | letter => c.writeReal? x letter

/-- An object in the form that a letter stands for. -/
def writeObject? (c : Conversion) (shown : String) : (letter : Char) → Option String
  | 's' | 'r' => some (c.writeText shown)
  | 'a' => some (c.writeText (Text.ascii shown))
  | _ => none

def write? (c : Conversion) (letter : Char) : FieldValue → Option String
  | .text s => c.writeText? s letter
  | .level l => c.writeInteger? l.text l.value letter
  | .integer n => c.writeInteger? (toString n) n letter
  | .real x => c.writeDouble? x.1 letter
  | .object shown => c.writeObject? shown letter

end Conversion

end StandardForm.Logging
