import Assembler.Line
import Assembler.Reader
import Assembler.Text.Blank

/-! # The grammar of lines

A line is blank, a comment, or a command with an optional label and an optional comment.  Numbers
may be hexadecimal, octal, decimal and, in dialects with relative names, binary.  A string of
characters runs to the last fitting quote of the line, so that quotes and semicolons may stand
inside it. -/

namespace Assembler.Grammar
open Reader
set_option autoImplicit false

/-! ## Names and numbers -/

def isNameStart (c : Char) : Bool := ('A' ≤ c && c ≤ 'Z') || ('a' ≤ c && c ≤ 'z') || c == '_'

/-- A letter, a digit or an underscore. -/
def isNameChar (c : Char) : Bool := isNameStart c || Text.isDecimal c

def identifier : Reader String :=
  named "identifier_parser"
    (String.ofList <$> headAndRun isNameStart isNameChar "[A-Za-z_][A-Za-z0-9_]*")

/-- A name as a direct operand, under the title it has in messages. -/
def directName (title : String) : Reader Operand := named title (Operand.direct <$> identifier)

def relativeName : Reader Operand :=
  named "relative_id_parser" do
    literal "@"
    Operand.relative <$> identifier

def signed (negative : Option Unit) (n : Nat) : Int :=
  match negative with
  | some _ => -(n : Int)
  | none => n

/-- A number in a base whose digits follow a mark. -/
def markedNumber (title mark : String) (base : Nat) (isDigit : Char → Bool) (what : String) :
    Reader Int :=
  named title do
    let sign ← optional (literal "-")
    literal mark
    let ds ← run1 isDigit what
    pure (signed sign (Text.valueOf base ds))

def hexadecimalNumber : Reader Int :=
  markedNumber "hexadecimal_number_parser" "0x" 16 Text.isHexadecimal "[0-9A-Fa-f]+"

def octalNumber : Reader Int := markedNumber "octal_number_parser" "0o" 8 Text.isOctal "[0-7]+"

def binaryNumber : Reader Int := markedNumber "binary_number_parser" "0b" 2 Text.isBinary "[0-1]+"

/-- The value of decimal digits, of which there may not be too many. -/
def decimalValue (sign : Option Unit) (ds : List Char) : Reader Int :=
  if Text.decimalLimit < ds.length then fault (.tooManyDigits ds.length)
  else value (signed sign (Text.valueOf 10 ds))

def decimalNumber : Reader Int :=
  named "decimal_number_parser" do
    let sign ← optional (literal "-")
    let ds ← run1 Text.isDecimal "[0-9]+"
    decimalValue sign ds

/-- A number in any base of the dialect. -/
def number (d : Dialect) : Reader Int :=
  named "number_parser" <|
    if d.hasRelative then
      orElse (orElse (orElse hexadecimalNumber binaryNumber) octalNumber) decimalNumber
    else orElse (orElse hexadecimalNumber octalNumber) decimalNumber

def numberOperand (d : Dialect) : Reader Operand := Operand.number <$> number d

/-! ## Strings and registers -/

/-- The quotes that may enclose a string. -/
def quotes : List Char := [Text.singleQuote, Text.doubleQuote]

def hexString : Reader Operand :=
  named "xstring_parser" do
    literal "x"
    let quote ← oneOf quotes
    let ds ← endingWith (run1 Text.isHexadecimal "[0-9A-Fa-f]+") (literal (String.singleton quote))
    pure (.hex (String.ofList ds))

/-- The end of a text from behind: blanks, the closing quote, and all that stands before it. -/
def closingQuote (quote : Char) : Reader (List Char) := do
  let _ ← run Text.isBlank
  literal (String.singleton quote)
  run (fun _ => true)

/-- The end of a text with a comment that holds neither the quote nor a semicolon, from behind. -/
def commentedQuote (quote : Char) : Reader (List Char) := do
  let _ ← run (fun c => !(c == quote || c == ';'))
  literal ";"
  closingQuote quote

/-- The string that the rest of a text holds, if that is closed; it is read from behind. -/
def closeString (quote : Char) (all : List Char) : Reader Operand :=
  match readFront (orElse (commentedQuote quote) (closingQuote quote))
    (String.ofList all.reverse) with
  | .ok (backwards, _) => pure (.chars (String.ofList backwards.reverse))
  | .error (.unreadable _) => expecting "Not in quotes"
  | .error x => fault x

/-- Characters in quotes; the string takes the whole rest of the text. -/
def charString : Reader Operand :=
  named "cstring_parser" do
    literal "c"
    let quote ← oneOf quotes
    let all ← run (fun _ => true)
    closeString quote all

/-- The letter of a register and its number. -/
def registerNumber : Reader Int := do
  let _ ← oneOf ['R', 'r']
  decimalNumber

/-- A register; a name may not follow at once. -/
def register : Reader Operand :=
  named "register_parser" do
    let i ← barring registerNumber (do let _ ← registerNumber; identifier)
    if 0 ≤ i ∧ i < 16 then pure (.register i)
    else expecting ("Invalid register number: " ++ Text.decimal i ++ ". Must be between 0 and 15")

/-! ## Commands and lines -/

/-- The title of a direct operand in messages. -/
def directTitle (d : Dialect) : String :=
  if d.hasRelative then "direct_id_parser" else "operand_id_parser"

/-- An operand: the first of its kinds that can be read. -/
def operand (d : Dialect) : Reader Operand :=
  let constants := orElse (orElse (orElse register (numberOperand d)) hexString) charString
  named "operand_parser" <|
    if d.hasRelative then orElse (orElse constants relativeName) (directName (directTitle d))
    else orElse constants (directName (directTitle d))

def blanks : Reader Unit := do
  let _ ← run Text.isBlank

/-- A comment to the end of the line. -/
def comment : Reader Unit :=
  named "comment_parser" do
    literal ";"
    let _ ← run (fun c => c ≠ '\n')

/-- The end of a line: blanks, then nothing or a comment. -/
def tail : Reader Unit :=
  named "tail_parser" do
    blanks
    orAtStart ending comment

/-- A mnemonic with its operands, up to the end of the line. -/
def command (d : Dialect) : Reader Command :=
  named "command_parser" do
    blanks
    let mnemonic ← endingWith identifier blanks
    let operands ← separated (operand d) (endingWith (literal ",") blanks)
    ahead tail
    pure ⟨mnemonic, operands⟩

def label : Reader String := named "label_parser" (endingWith identifier (literal ":"))

def commandLine (d : Dialect) : Reader Line :=
  named "go" do
    blanks
    let name ← endingWith (optional label) blanks
    let cmd ← endingWith (command d) blanks
    tail
    pure ⟨name, cmd⟩

/-- A line; one without a command gives nothing. -/
def line (d : Dialect) : Reader (Option Line) :=
  named "line_parser" (orElse ((fun _ => none) <$> tail) (some <$> commandLine d))

end Assembler.Grammar
