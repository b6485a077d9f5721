/-! # Blank characters

The characters that separate tokens, and the text left when blanks are taken off both ends.  The
class is the one of the Unicode white-space property together with the four information
separators. -/

namespace Assembler.Text
set_option autoImplicit false

/-- Blanks: the ASCII controls from tabulator to carriage return, the information separators, the
space, and the space separators and line ends above ASCII. -/
def isBlank (c : Char) : Bool :=
  let n := c.toNat
  (0x09 ≤ n && n ≤ 0x0D) || (0x1C ≤ n && n ≤ 0x20) || n == 0x85 || n == 0xA0 || n == 0x1680 ||
    (0x2000 ≤ n && n ≤ 0x200A) || n == 0x2028 || n == 0x2029 || n == 0x202F || n == 0x205F ||
      n == 0x3000

def stripChars (cs : List Char) : List Char :=
  ((cs.dropWhile isBlank).reverse.dropWhile isBlank).reverse

/-- Takes the blanks off both ends of a text. -/
def strip (s : String) : String := String.ofList (stripChars s.toList)

/-- Cuts a list of characters at every line feed; there is always a first line. -/
def splitLines : List Char → List (List Char)
  | [] => [[]]
  | c :: cs =>
    match splitLines cs with
    | [] => [[c]]
    | line :: lines => if c = '\n' then [] :: line :: lines else (c :: line) :: lines

end Assembler.Text
