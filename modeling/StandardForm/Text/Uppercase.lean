/-!
# Upper-casing into ASCII

Names are matched against the upper-casing of a text. Only ten characters outside ASCII have
an upper-casing that lies within ASCII: the sharp s, the dotless i, the long s and seven
ligatures. Every other character outside ASCII keeps at least one character outside ASCII in
its upper-casing, so it may stay as it is wherever the result is compared with an ASCII name.
-/

namespace StandardForm.Text

/-- The upper-casing of a character whose upper-casing is ASCII; any other is kept. -/
def upperChar (c : Char) : List Char :=
  match c.toNat with
  | 0xdf => ['S', 'S']
  | 0x131 => ['I']
  | 0x17f => ['S']
  | 0xfb00 => ['F', 'F']
  | 0xfb01 => ['F', 'I']
  | 0xfb02 => ['F', 'L']
  | 0xfb03 => ['F', 'F', 'I']
  | 0xfb04 => ['F', 'F', 'L']
  | 0xfb05 => ['S', 'T']
  | 0xfb06 => ['S', 'T']
  | _ => [c.toUpper]

/-- The upper-casing of a text, as far as an ASCII name can tell. -/
def upper (s : String) : String := String.ofList (s.toList.flatMap upperChar)

end StandardForm.Text
