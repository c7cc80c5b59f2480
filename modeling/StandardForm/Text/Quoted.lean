import StandardForm.Text.Printable

/-!
# Quoted text

Messages show a text between quotation marks. Single marks are used unless the text holds a
single mark and no double one. The mark in use, the backslash and characters that are not
printable are escaped; printable characters of every script stand for themselves, or are escaped as
well where the result has to be ASCII.
-/

namespace StandardForm.Text

def hex (width n : Nat) : String :=
  let ds := Nat.toDigits 16 n
  String.ofList (List.replicate (width - ds.length) '0' ++ ds)

def codeEscape (c : Char) : String :=
  if c.toNat < 0x100 then "\\x" ++ hex 2 c.toNat
  else if c.toNat < 0x10000 then "\\u" ++ hex 4 c.toNat
  else "\\U" ++ hex 8 c.toNat

def ascii (s : String) : String :=
  String.join (s.toList.map fun c => if c.toNat < 128 then c.toString else codeEscape c)

/-- A character inside quotation marks `mark`; those that `plain` holds of need no escape. -/
def escaped (plain : Char → Bool) (mark c : Char) : String :=
  if c = mark ∨ c = '\x5c' then "\\" ++ c.toString
  else if c = '\t' then "\\t"
  else if c = '\n' then "\\n"
  else if c = '\r' then "\\r"
  else if plain c then c.toString
  else codeEscape c

/-- The mark around a text: the one that needs no escape, the single one if both would. -/
def quotationMark (s : String) : Char :=
  if s.toList.contains '\x27' && !s.toList.contains '\x22' then '\x22' else '\x27'

/-- A text between quotation marks, with an escape for each character that is not plain. -/
def quotedBy (plain : Char → Bool) (s : String) : String :=
  let mark := quotationMark s
  mark.toString ++ String.join (s.toList.map (escaped plain mark)) ++ mark.toString

def quoted (s : String) : String := quotedBy isPrintable s

def quotedAscii (s : String) : String := quotedBy (fun c => isPrintable c && c.toNat < 128) s

end StandardForm.Text
