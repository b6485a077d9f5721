import Assembler.Operand

/-! # Lines of a program

A command is a mnemonic with operands; a line is a command with or without a label. -/

namespace Assembler
set_option autoImplicit false

/-- A mnemonic and its operands. -/
structure Command where
  mnemonic : String
  operands : List Operand
  deriving DecidableEq, Repr

/-- The written form; a blank follows the mnemonic even without operands. -/
def Command.text (c : Command) : String := c.mnemonic ++ " " ++ Operand.listText c.operands

/-- A command and its label. -/
structure Line where
  label : Option String
  command : Command
  deriving DecidableEq, Repr

namespace Line

/-- The label, if there is one and it is not the empty text. -/
def name? (l : Line) : Option String :=
  match l.label with
  | some "" => none
  | other => other

def text (l : Line) : String :=
  match l.name? with
  | some name => name ++ ": " ++ l.command.text
  | none => l.command.text

def mnemonic (l : Line) : String := l.command.mnemonic

def operands (l : Line) : List Operand := l.command.operands

end Line

/-- An absent text is shown as this word. -/
def absentText : String := "None"

/-- A label as shown in records and messages. -/
def labelText (label : Option String) : String := label.getD absentText

end Assembler
