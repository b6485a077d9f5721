import Assembler.Text.Blank
import Assembler.Text.Radix

/-! # Hexadecimal literals

A text stands for a number if, with the blanks taken off both ends, it is a sign or none, the mark
`0x` or none, and hexadecimal digits with single underscores between them.  Blanks and decimal
digits of every script are as good as the plain ones. -/

namespace Assembler.Text
set_option autoImplicit false

/-- The codes of the decimal zeros, each of which is followed by the other nine digits of its
script. -/
def decimalZeros : List Nat :=
  [0x0030, 0x0660, 0x06F0, 0x07C0, 0x0966, 0x09E6, 0x0A66, 0x0AE6, 0x0B66, 0x0BE6, 0x0C66, 0x0CE6,
    0x0D66, 0x0DE6, 0x0E50, 0x0ED0, 0x0F20, 0x1040, 0x1090, 0x17E0, 0x1810, 0x1946, 0x19D0, 0x1A80,
    0x1A90, 0x1B50, 0x1BB0, 0x1C40, 0x1C50, 0xA620, 0xA8D0, 0xA900, 0xA9D0, 0xA9F0, 0xAA50, 0xABF0,
    0xFF10, 0x104A0, 0x10D30, 0x11066, 0x110F0, 0x11136, 0x111D0, 0x112F0, 0x11450, 0x114D0,
    0x11650, 0x116C0, 0x11730, 0x118E0, 0x11950, 0x11C50, 0x11D50, 0x11DA0, 0x16A60, 0x16AC0,
    0x16B50, 0x1D7CE, 0x1D7D8, 0x1D7E2, 0x1D7EC, 0x1D7F6, 0x1E140, 0x1E2F0, 0x1E950, 0x1FBF0]

/-- What a character counts as in a literal; nothing else above ASCII can stand in one. -/
def plainForm (c : Char) : Char :=
  if c.toNat < 0x7F then c
  else if isBlank c then ' '
  else
    match decimalZeros.find? fun z => z ≤ c.toNat && c.toNat < z + 10 with
    | some z => Char.ofNat ('0'.toNat + (c.toNat - z))
    | none => '?'

/-- The blanks that may stand around a literal, in plain form. -/
def isPlainBlank (c : Char) : Bool := (0x09 ≤ c.toNat && c.toNat ≤ 0x0D) || c == ' '

/-- Takes off the mark of hexadecimal literals, and one underscore behind it. -/
def unmark : List Char → List Char
  | '0' :: 'x' :: '_' :: cs | '0' :: 'X' :: '_' :: cs => cs
  | '0' :: 'x' :: cs | '0' :: 'X' :: cs => cs
  | cs => cs

/-- Takes out the underscores, each of which stands between two digits. -/
def ungroup : List Char → Option (List Char)
  | [] => none
  | [c] => if isHexadecimal c then some [c] else none
  | c :: '_' :: cs => if isHexadecimal c then (ungroup cs).map (c :: ·) else none
  | c :: cs => if isHexadecimal c then (ungroup cs).map (c :: ·) else none

/-- The number of a literal without a sign. -/
def unsignedLiteral? (cs : List Char) : Option Nat := (ungroup (unmark cs)).map (valueOf 16)

/-- The plain form of a text without the blanks around it. -/
def bareForm (cs : List Char) : List Char :=
  (((cs.map plainForm).dropWhile isPlainBlank).reverse.dropWhile isPlainBlank).reverse

/-- The number that a literal stands for. -/
def hexLiteral? (cs : List Char) : Option Int :=
  match bareForm cs with
  | '-' :: ds => (unsignedLiteral? ds).map fun n : Nat => -(n : Int)
  | '+' :: ds => (unsignedLiteral? ds).map fun n : Nat => (n : Int)
  | ds => (unsignedLiteral? ds).map fun n : Nat => (n : Int)

end Assembler.Text
