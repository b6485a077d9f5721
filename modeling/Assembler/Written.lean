import Assembler.Fault
import Assembler.Line

/-! # Written forms

The text of an operand, command or line exists only if its numbers have decimal forms.  `hasText`
says whether it does, and `written` is the text or the fault. -/

namespace Assembler
set_option autoImplicit false

/-- Whether the text of an operand exists; only numbers may lack it. -/
def Operand.hasText : Operand → Bool
  | .number v => Text.hasDecimal v
  | _ => true

/-- A text that exists under a condition. -/
def writtenIf (exists_ : Bool) (text : String) : Except Fault String :=
  if exists_ then .ok text else .error .noDecimal

def Operand.written (op : Operand) : Except Fault String := writtenIf op.hasText op.text

def Operand.listWritten (ops : List Operand) : Except Fault String :=
  writtenIf (ops.all Operand.hasText) (Operand.listText ops)

def Command.written (c : Command) : Except Fault String :=
  writtenIf (c.operands.all Operand.hasText) c.text

def Line.written (l : Line) : Except Fault String :=
  writtenIf (l.operands.all Operand.hasText) l.text

end Assembler
