import StandardForm.Binary.Arithmetic
import StandardForm.Datum.Basic
import StandardForm.Decimal.Shortest

/-!
# Arrays as messages show them

The entries of an array are written alike, so that they stand in columns: all with a power of
ten or none, with as many places before the point as the longest of them needs. Rows are put
between brackets, one pair for each axis, and a row that is too long for a line is continued on
the next one. An array with very many entries is shown by the entries at its corners.

The functions come in the order of the work: choosing what is shown, writing the entries,
laying them out.
-/

namespace StandardForm.ArrayText

/-! ### What is shown -/

/-- An array with more entries than this is shown by its corners. -/
def mostEntries : Nat := 1000

/-- The number of entries at either end of an axis that count as corners. -/
def cornerLength : Nat := 3

def hasGap (abridged : Bool) (n : Nat) : Bool := abridged && 2 * cornerLength < n

/-- The number of entries shown along an axis of `n` entries. -/
def shownLength (abridged : Bool) (n : Nat) : Nat :=
  if hasGap abridged n then 2 * cornerLength else n

/-- The entries shown, in row-major order. -/
def shown {α : Type} (abridged : Bool) : (shape : List Nat) → List α → List α
  | [], as => as
  | n :: shape, as =>
    let slices := Tensor.chunks (volume shape) n as
    let slices :=
      if hasGap abridged n then
        slices.take cornerLength ++ slices.drop (n - cornerLength)
      else slices
    slices.flatMap (shown abridged shape)

/-! ### Entries in columns -/

def alignRight (width : Nat) (s : String) : String :=
  String.ofList (List.replicate (width - s.length) ' ') ++ s

def fillRight (c : Char) (width : Nat) (s : String) : String :=
  s ++ String.ofList (List.replicate (width - s.length) c)

def widest (ss : List String) : Nat := ss.foldl (fun w s => Nat.max w s.length) 0

def mostPlaces : Nat := 8

section Reals

variable {f : FloatFormat}

/-- The magnitude from which on a power of ten is used, as a power of ten itself. -/
def largePower : FloatFormat → Nat
  | .single => 6
  | .double | .extended => 8

def constant (f : FloatFormat) (digits : Nat) (exponent : Int) : Binary f :=
  (Binary.ofDecimal .double false digits exponent).cast f

/-- Whether finite numbers are written with powers of ten: some of them are large or small, or
their magnitudes differ much. Zeros do not count. -/
def usesPowers (xs : List (Binary f)) : Bool :=
  match (xs.filter (!·.isZero)).map Binary.abs with
  | [] => false
  | x :: rest =>
    let greatest := rest.foldl (fun y z => if y < z then z else y) x
    let least := rest.foldl (fun y z => if z < y then z else y) x
    (constant f 1 (largePower f)).le greatest || least.lt (constant f 1 (-4))
      || (constant f 1 3).lt (greatest / least)

/-- The exponent of the leading digit of a finite rung above zero. -/
def leading (f : FloatFormat) (rung : Nat) : Int :=
  let i := Binary.roundingInterval f rung
  Decimal.leadingExponent i.value i.den 3 (Decimal.ceilExponent i.value i.den)

/-- The digits of a rung above zero, none of them beyond `10 ^ finest`. -/
def digits (f : FloatFormat) (finest : Int) (rung : Nat) : Decimal.Digits :=
  (Binary.roundingInterval f rung).shortestDownTo finest (f.precision + mostPlaces) (leading f rung)

/-- The digits of a rung above zero down to `10 ^ finest`, needed or not. -/
def digitsAt (f : FloatFormat) (finest : Int) (rung : Nat) : Decimal.Digits :=
  ⟨(Binary.roundingInterval f rung).roundedAt finest, finest⟩

/-- The parts of a finite number, with its sign; `ofRung` says those of a rung above zero. -/
def partsBy (ofRung : Nat → Decimal.Parts) : Binary f → Decimal.Parts
  | .nan => ⟨"", "", 0⟩
  | .num s r =>
    let p := if r.val = 0 then ⟨"0", "", 0⟩ else ofRung r.val
    { p with whole := (if s then "-" else "") ++ p.whole }

def positionalParts : Binary f → Decimal.Parts :=
  partsBy fun r => (digits f (-mostPlaces) r).positional

def scientificParts : Binary f → Decimal.Parts :=
  partsBy fun r => (digits f (leading f r - mostPlaces) r).scientific

/-- The same with a given number of places, which shows further digits of numbers that have
fewer. -/
def exactParts (places : Nat) : Binary f → Decimal.Parts :=
  partsBy fun r => (digitsAt f (leading f r - places) r).scientific

def powerText (width : Nat) (e : Int) : String :=
  (if e < 0 then "e-" else "e+") ++ Decimal.padded width e.natAbs

/-- How the finite numbers of an array are written: `left` places before the point, the sign
among them, `right` places behind it, and a power of ten of `width` digits if there is one. -/
structure Columns where
  left : Nat
  right : Nat
  power : Option Nat

/-- The columns that finite numbers need. -/
def Columns.ofFinite (xs : List (Binary f)) : Columns :=
  if usesPowers xs then
    let parts := xs.map scientificParts
    ⟨widest (parts.map (·.whole)), widest (parts.map (·.fraction)),
      some (widest (parts.map fun p => Decimal.padded 2 p.power.natAbs))⟩
  else
    let parts := xs.map positionalParts
    ⟨widest (parts.map (·.whole)), widest (parts.map (·.fraction)), none⟩

/-- The number of places from the point on. -/
def Columns.behind (c : Columns) : Nat :=
  1 + c.right + match c.power with
    | some width => width + 2
    | none => 0

/-- The columns widened for numbers that are not finite, if there are any. -/
def Columns.widen (c : Columns) (xs : List (Binary f)) : Columns :=
  if xs.all Binary.isFinite then c
  else
    let negative := xs.any fun x => x.isInfinite && x.lt 0
    { c with
      left := Nat.max c.left (Nat.max (3 - c.behind) ((if negative then 4 else 3) - c.behind)) }

def Columns.write (c : Columns) (x : Binary f) : String :=
  if x.isFinite then
    match c.power with
    | none =>
      let p := positionalParts x
      alignRight c.left p.whole ++ "." ++ fillRight ' ' c.right p.fraction
    | some width =>
      let p := exactParts c.right x
      alignRight c.left p.whole ++ "." ++ fillRight '0' c.right p.fraction
        ++ powerText width p.power
  else alignRight (c.left + c.behind) x.shortest

def realTexts (xs : List (Binary f)) : List String :=
  xs.map ((Columns.ofFinite (xs.filter Binary.isFinite)).widen xs).write

end Reals

def wordTexts (ns : List Int) : List String :=
  let texts := ns.map toString
  texts.map (alignRight (widest texts))

/-! ### Layout -/

/-- The line being filled and the text before it. -/
structure Page where
  done : String
  line : String

def trimRight (s : String) : String :=
  String.ofList (s.toList.reverse.dropWhile (· == ' ')).reverse

/-- Put a word on the line, or on the next one if the line would exceed the width. A line that
holds no word yet takes any. -/
def Page.put (width indent : Nat) (p : Page) (word : String) : Page :=
  if width < p.line.length + word.length ∧ indent < p.line.length then
    ⟨p.done ++ trimRight p.line ++ "\n", String.ofList (List.replicate indent ' ') ++ word⟩
  else { p with line := p.line ++ word }

def putAll (separator : String) (width indent : Nat) : Page → List String → Page
  | p, [] => p
  | p, [word] => p.put width indent word
  | p, word :: words =>
    let p := p.put width indent word
    putAll separator width indent { p with line := p.line ++ separator } words

def row (separator : String) (width indent : Nat) (words : List String) : String :=
  let p := putAll separator (width - 1) indent ⟨"", String.ofList (List.replicate indent ' ')⟩ words
  "[" ++ String.ofList ((p.done ++ p.line).toList.drop indent) ++ "]"

def gap : String := "..."

/-- Items with the gap in the middle, if there is one. -/
def withGap (abridged : Bool) (n : Nat) (items : List String) : List String :=
  if hasGap abridged n then items.take cornerLength ++ gap :: items.drop cornerLength else items

/-- Texts of entries between brackets, a pair for each axis. Rows stand below each other, with
an empty line more for each further axis. -/
def layout (separator : String) (abridged : Bool) : (shape : List Nat) → (width indent : Nat) →
    List String → String
  | [], _, _, texts => texts.headD ""
  | [n], width, indent, texts => row separator width indent (withGap abridged n texts)
  | n :: shape, width, indent, texts =>
    let size := volume (shape.map (shownLength abridged))
    let slices := (Tensor.chunks size (shownLength abridged n) texts).map
      (layout separator abridged shape (width - 1) (indent + 1))
    let lineEnd := trimRight separator ++ String.ofList (List.replicate shape.length '\n')
      ++ String.ofList (List.replicate indent ' ')
    "[" ++ String.intercalate lineEnd (withGap abridged n slices) ++ "]"

def lineWidth : Nat := 75

def texts (abridged : Bool) : NumberArray → List String
  | .reals _ t => realTexts (shown abridged t.shape t.entries)
  | .words t => wordTexts (shown abridged t.shape t.entries)

def size (a : NumberArray) : Nat := volume a.shape

def isAbridged (a : NumberArray) : Bool := mostEntries < size a

/-- The entries of an array between brackets; `before` and `behind` say how much else stands on
its first and on its last line. -/
def bracketedEntries (separator : String) (before behind : Nat) (a : NumberArray) : String :=
  if size a = 0 then "[]"
  else
    layout separator (isAbridged a) a.shape (lineWidth - behind) (before + 1)
      (texts (isAbridged a) a)

end StandardForm.ArrayText
