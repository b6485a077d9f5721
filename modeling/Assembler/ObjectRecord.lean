import Assembler.Line

/-! # Object records

The records of an object program and the styles in which the dialects print them. -/

namespace Assembler
set_option autoImplicit false

/-- A record of an object program. -/
inductive ObjectRecord where
  /-- The head of a program or section; its length may not be known yet. -/
  | header (label : Option String) (address : Int) (length : Option Int)
  /-- An exported name and its address digits. -/
  | definition (name : String) (digits : String)
  /-- An imported name. -/
  | reference (name : String)
  /-- A command: its code byte and the digits of its operands. -/
  | code (address size byte : Int) (field : String)
  /-- Data. -/
  | data (address size : Int) (digits : String)
  /-- Space without data. -/
  | space (address size : Int)
  /-- An address to be modified when the program is placed, by the address of an imported name if
  one is given. -/
  | modification (address : Int) (name : Option String)
  /-- The end, with the address where the program is entered. -/
  | finish (entry : Int)
  deriving DecidableEq, Repr

/-- How records are printed. -/
structure RecordStyle where
  /-- The letters in the address and length of the header and in the entry address. -/
  frameCase : Text.LetterCase
  /-- Whether a blank follows the address of the header even without a length. -/
  headerGap : Bool
  /-- The letters in the code byte. -/
  byteCase : Text.LetterCase
  /-- Whether sizes of commands are hexadecimal. -/
  hexCodeSize : Bool
  /-- Whether sizes of data and space are hexadecimal. -/
  hexDataSize : Bool
  /-- Whether a blank follows the size of space. -/
  spaceGap : Bool
  deriving DecidableEq, Repr

namespace RecordStyle

/-- The style of flat programs in two passes. -/
def flat : RecordStyle := ⟨.upper, false, .lower, false, false, false⟩

/-- The style of sectioned programs in two passes. -/
def linked : RecordStyle := ⟨.upper, false, .upper, false, false, false⟩

/-- The style of absolute programs in one pass. -/
def patched : RecordStyle := ⟨.lower, true, .upper, false, true, false⟩

/-- The style of the other programs in one pass. -/
def drafted : RecordStyle := ⟨.upper, false, .upper, true, true, true⟩

end RecordStyle

/-- A size in capital hexadecimal or in decimal. -/
def sizeText (inHex : Bool) (n : Int) : String :=
  if inHex then Text.hex .upper 0 n else Text.decimal n

def ObjectRecord.text (s : RecordStyle) : ObjectRecord → String
  | .header label a none =>
    "H " ++ labelText label ++ " " ++ Text.hex s.frameCase 6 a ++ (if s.headerGap then " " else "")
  | .header label a (some n) =>
    "H " ++ labelText label ++ " " ++ Text.hex s.frameCase 6 a ++ " " ++ Text.hex s.frameCase 0 n
  | .definition name ds => "D " ++ name ++ " " ++ ds
  | .reference name => "R " ++ name
  | .code a n b f =>
    "T " ++ Text.address a ++ " " ++ sizeText s.hexCodeSize n ++ " " ++ Text.hex s.byteCase 2 b ++ f
  | .data a n ds => "T " ++ Text.address a ++ " " ++ sizeText s.hexDataSize n ++ " " ++ ds
  | .space a n =>
    "T " ++ Text.address a ++ " " ++ sizeText s.hexDataSize n ++ (if s.spaceGap then " " else "")
  | .modification a none => "M " ++ Text.address a
  | .modification a (some name) => "M " ++ Text.address a ++ " " ++ name
  | .finish a => "E " ++ Text.hex s.frameCase 6 a

end Assembler
