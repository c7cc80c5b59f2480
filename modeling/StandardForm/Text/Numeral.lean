import StandardForm.Text.Class
import StandardForm.Binary.Conversion

/-!
# Numbers written as text

There are two grammars. The *liberal* one admits blanks on both sides, digits of every
script and a low line between two digits. The *strict* one admits blanks of ASCII in front
only and ASCII digits, but also hexadecimal numerals with a binary exponent, and it ends at a
null character. Both admit an infinity and a NaN in any letter case.

A text is read in two steps, into a numeral that is exact and from there into a format.
-/

namespace StandardForm.Text

/-- An exact value as it is written. -/
inductive Numeral
  | nan
  | infinity (negative : Bool)
  | decimal (negative : Bool) (digits : Nat) (exponent : Int)
  | binary (negative : Bool) (digits : Nat) (exponent : Int)
  deriving DecidableEq

def Numeral.toBinary (f : FloatFormat) : Numeral → Binary f
  | nan => .nan
  | infinity s => .infinity s
  | decimal s digits exponent => .ofDecimal f s digits exponent
  | binary s digits exponent => .ofBinaryScaled f s digits exponent

/-- A sign, if there is one, and the rest. -/
def splitSign : List Char → Bool × List Char
  | '-' :: cs => (true, cs)
  | '+' :: cs => (false, cs)
  | cs => (false, cs)

def asciiDigit? (c : Char) : Option Nat :=
  if '0' ≤ c ∧ c ≤ '9' then some (c.toNat - 48) else none

def hexDigit? (c : Char) : Option Nat :=
  if '0' ≤ c ∧ c ≤ '9' then some (c.toNat - 48)
  else if 'a' ≤ c ∧ c ≤ 'f' then some (c.toNat - 87)
  else if 'A' ≤ c ∧ c ≤ 'F' then some (c.toNat - 55)
  else none

/-- The longest run of digits: how many there are, the number that they form in a base,
starting from `value`, and the rest. -/
def takeDigits (digit? : Char → Option Nat) (base : Nat) :
    (cs : List Char) → (count value : Nat) → Nat × Nat × List Char
  | [], count, value => (count, value, [])
  | c :: cs, count, value =>
    match digit? c with
    | some d => takeDigits digit? base cs (count + 1) (value * base + d)
    | none => (count, value, c :: cs)

/-- Digits with a point among them: how many stand behind the point, the number that all of
them form, and the rest. There has to be a digit on one side of the point. -/
def takePointed? (digit? : Char → Option Nat) (base : Nat) (cs : List Char) :
    Option (Nat × Nat × List Char) :=
  let (before, whole, rest) := takeDigits digit? base cs 0 0
  match rest with
  | '.' :: rest =>
    let (behind, value, rest) := takeDigits digit? base rest 0 whole
    if before + behind = 0 then none else some (behind, value, rest)
  | rest => if before = 0 then none else some (0, whole, rest)

/-- The exponent that ends a numeral, after one of the two given letters; nothing stands
for zero. -/
def exponent? (small large : Char) : List Char → Option Int
  | [] => some 0
  | c :: cs =>
    if c = small ∨ c = large then
      let (negative, cs) := splitSign cs
      let (count, value, rest) := takeDigits asciiDigit? 10 cs 0 0
      if count = 0 ∨ rest ≠ [] then none
      else some (if negative then -(value : Int) else value)
    else none

/-- An unsigned decimal numeral. -/
def decimal? (negative : Bool) (cs : List Char) : Option Numeral := do
  let (behind, digits, rest) ← takePointed? asciiDigit? 10 cs
  let e ← exponent? 'e' 'E' rest
  some (.decimal negative digits (e - behind))

/-- An unsigned hexadecimal numeral, without its leading `0x`. -/
def hexadecimal? (negative : Bool) (cs : List Char) : Option Numeral := do
  let (behind, digits, rest) ← takePointed? hexDigit? 16 cs
  let e ← exponent? 'p' 'P' rest
  some (.binary negative digits (e - 4 * behind))

/-- An infinity or a NaN, in any letter case. -/
def special? (negative : Bool) (cs : List Char) : Option Numeral :=
  match String.ofList (cs.map Char.toLower) with
  | "inf" => some (.infinity negative)
  | "infinity" => some (.infinity negative)
  | "nan" => some .nan
  | _ => none

/-- A NaN with a tag behind it: an opening parenthesis, letters, digits and low lines, and
perhaps a closing parenthesis. -/
def tagged? (cs : List Char) : Option Numeral :=
  match cs.map Char.toLower with
  | 'n' :: 'a' :: 'n' :: '(' :: tag =>
    match tag.dropWhile fun c => c.isAlphanum || c == '_' with
    | [] | [')'] => some .nan
    | _ => none
  | _ => none

/-- Blanks and digits outside ASCII written in ASCII; any other character outside ASCII becomes
one that no numeral holds. -/
def toAscii (cs : List Char) : List Char :=
  cs.map fun c =>
    if c.toNat < 128 then c
    else if isBlank c then ' '
    else match digitValue? c with
      | some d => Char.ofNat (48 + d)
      | none => '?'

/-- The text between the outermost characters that are not blank. -/
def trimBlanks (cs : List Char) : List Char :=
  ((cs.dropWhile isAsciiBlank).reverse.dropWhile isAsciiBlank).reverse

/-- The text without its low lines, each of which has to stand between two digits. -/
def joinGroups? : (previous : Char) → List Char → Option (List Char)
  | previous, [] => if previous = '_' then none else some []
  | previous, c :: cs =>
    if c = '_' then if previous.isDigit then joinGroups? c cs else none
    else if previous = '_' ∧ !c.isDigit then none
    else (joinGroups? c cs).map (c :: ·)

/-- The liberal grammar. -/
def numeral? (s : String) : Option Numeral := do
  let cs ← joinGroups? ' ' (trimBlanks (toAscii s.toList))
  let (negative, rest) := splitSign cs
  (special? negative rest).or (decimal? negative rest)

/-- The strict grammar. Blanks alone denote zero, but no text at all denotes nothing. -/
def strictNumeral? (s : String) : Option Numeral :=
  let cs := s.toList.takeWhile (· ≠ '\x00')
  let (negative, rest) := splitSign (cs.dropWhile isAsciiBlank)
  if cs ≠ [] ∧ cs.all isAsciiBlank then some (.decimal false 0 0)
  else
    (special? negative rest).or <| (tagged? rest).or <|
      match rest with
      | '0' :: 'x' :: rest => hexadecimal? negative rest
      | '0' :: 'X' :: rest => hexadecimal? negative rest
      | rest => decimal? negative rest

/-- The most digits that an integer may have in text, read or written. -/
def integerDigits : Nat := 4300

/-- An integer in the liberal grammar. -/
def integer? (s : String) : Option Int := do
  let cs ← joinGroups? ' ' (trimBlanks (toAscii s.toList))
  let (negative, rest) := splitSign cs
  let (count, value, rest) := takeDigits asciiDigit? 10 rest 0 0
  if count = 0 ∨ integerDigits < count ∨ rest ≠ [] then none
  else some (if negative then -(value : Int) else value)

end StandardForm.Text
