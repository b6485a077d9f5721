import Assembler.Text.Radix

/-! # Operands

The six kinds of operand, their written form and the bytes they take as data. -/

namespace Assembler
set_option autoImplicit false

/-- An operand of a command or directive. -/
inductive Operand where
  /-- A name standing for the address it labels. -/
  | direct (name : String)
  /-- A name standing for the distance to the address it labels. -/
  | relative (name : String)
  /-- A number. -/
  | number (value : Int)
  /-- A register by its index. -/
  | register (index : Int)
  /-- Characters, one byte each. -/
  | chars (text : String)
  /-- Hexadecimal digits, two a byte. -/
  | hex (digits : String)
  deriving DecidableEq, Repr

/-- The kinds of operand. -/
inductive OperandKind where
  | direct
  | relative
  | number
  | register
  | chars
  | hex
  deriving DecidableEq, Repr

def OperandKind.name : OperandKind → String
  | .direct => "Identifier"
  | .relative => "RelativeIdentifier"
  | .number => "Number"
  | .register => "Register"
  | .chars => "CString"
  | .hex => "XString"

namespace Operand

def kind : Operand → OperandKind
  | .direct _ => .direct
  | .relative _ => .relative
  | .number _ => .number
  | .register _ => .register
  | .chars _ => .chars
  | .hex _ => .hex

def text : Operand → String
  | .direct name => name
  | .relative name => "[" ++ name ++ "]"
  | .number v => Text.decimal v
  | .register i => "R" ++ Text.hex .upper 0 i
  | .chars s => "c'" ++ s ++ "'"
  | .hex s => "x'" ++ s ++ "'"

/-- The bytes an operand takes when it is the datum of a byte directive. -/
def size : Operand → Nat
  | .direct _ => 3
  | .relative _ => 2
  | .number _ => 1
  | .register _ => 0
  | .chars s => s.toList.length
  | .hex s => (s.toList.length + 1) / 2

/-- Whether an operand is a string constant of either form. -/
def isString : Operand → Bool
  | .chars _ => true
  | .hex _ => true
  | _ => false

def referredName? : Operand → Option String
  | .direct name => some name
  | .relative name => some name
  | _ => none

/-- Whether operands have the wanted kinds one by one; `none` wants any operand. -/
def fit : List Operand → List (Option OperandKind) → Bool
  | [], [] => true
  | op :: ops, k :: ks => (k == none || k == some op.kind) && fit ops ks
  | _, _ => false

/-- Operands separated by a comma and a space. -/
def listText (ops : List Operand) : String := String.intercalate ", " (ops.map text)

end Operand

/-- How the operands of a command say where the datum is. -/
inductive Addressing where
  | immediate
  | direct
  | relative
  deriving DecidableEq, Repr

namespace Addressing

/-- The two low bits of the code byte. -/
def code : Addressing → Int
  | .immediate => 0
  | .direct => 1
  | .relative => 2

/-- One relative name makes the command relative; else one direct name makes it direct. -/
def ofOperands (ops : List Operand) : Addressing :=
  if ops.any (·.kind == .relative) then .relative
  else if ops.any (·.kind == .direct) then .direct
  else .immediate

end Addressing

end Assembler
