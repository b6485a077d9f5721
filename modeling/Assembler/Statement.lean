import Assembler.OpTable
import Assembler.Problem
import Assembler.Scope
import Assembler.Field

/-! # What lines ask for

The mnemonic of a line decides what it asks for: the directives of the layout come first, then the
operations of the table.  The rules on operands, addresses and space that all passes share stand
here; each gives the problems of a line in the order in which they are reported. -/

namespace Assembler
set_option autoImplicit false

/-- The directives that take space. -/
inductive Storage where
  | words
  | reservedWords
  | bytes
  | reservedBytes
  deriving DecidableEq, Repr

/-- What a line asks for. -/
inductive Statement where
  | start
  | newSection
  | finish
  | storage (kind : Storage)
  | exportName
  | importName
  | command (op : Operation)
  | unknown
  deriving DecidableEq, Repr

namespace Statement

/-- A mnemonic that is no directive. -/
def ofTable (table : OpTable) (mnemonic : String) : Statement :=
  match table.get? mnemonic with
  | some op => .command op
  | none => .unknown

/-- A mnemonic that is a directive of sectioned programs only. -/
def sectionOnly (layout : Layout) (s other : Statement) : Statement :=
  match layout with
  | .sectioned => s
  | _ => other

def ofMnemonic (layout : Layout) (table : OpTable) (mnemonic : String) : Statement :=
  if mnemonic = "START" then .start
  else if mnemonic = "END" then .finish
  else if mnemonic = "WORD" then .storage .words
  else if mnemonic = "RESW" then .storage .reservedWords
  else if mnemonic = "BYTE" then .storage .bytes
  else if mnemonic = "RESB" then .storage .reservedBytes
  else if mnemonic = "CSECT" then sectionOnly layout .newSection (ofTable table mnemonic)
  else if mnemonic = "EXTDEF" then sectionOnly layout .exportName (ofTable table mnemonic)
  else if mnemonic = "EXTREF" then sectionOnly layout .importName (ofTable table mnemonic)
  else ofTable table mnemonic

end Statement

/-! ## Addresses -/

def lastAddress : Int := 0xFFFFFF

/-- An address has to lie in memory. -/
def rangeProblems (a : Int) (role : AddressRole) : List Problem :=
  if 0 ≤ a ∧ a ≤ lastAddress then [] else [.outOfRange a role]

/-- The address where programs begin that do not say so. -/
def Layout.origin : Layout → Int
  | .absolute => 1
  | _ => 0

/-- Absolute programs do not begin at zero, all others do. -/
def Layout.loadProblems : Layout → Int → List Problem
  | .absolute, a => if a = 0 then [.zeroLoadAddress] else []
  | _, a => if a = 0 then [] else [.nonzeroLoadAddress]

/-! ## The operands of directives -/

def isOptionalNumber : List Operand → Bool
  | [] => true
  | [.number _] => true
  | _ => false

def onlyNumber? : List Operand → Option Int
  | [.number v] => some v
  | _ => none

/-- The direct name that stands alone. -/
def onlyName? : List Operand → Option String
  | [.direct name] => some name
  | _ => none

/-- The space a storage directive takes, the digits it puts there, and the problems with its
value. -/
structure Allotment where
  size : Int
  digits : Option String
  problems : List Problem
  deriving DecidableEq, Repr

/-- Reserved space: a negative amount is a problem, and so is an end out of range. -/
def reservation (counter size : Int) (negative : Problem) (role : AddressRole) : Allotment :=
  ⟨size, none, (if size < 0 then [negative] else []) ++ rangeProblems (counter + size) role⟩

/-- What a storage directive at the counter takes; operands of another form are a problem of their
own. -/
def Storage.allot (kind : Storage) (counter : Int) (ops : List Operand) :
    Except Problem Allotment :=
  match kind, ops with
  | .words, [.number v] =>
    .ok ⟨3, wordDigits? ops, if 0 ≤ v ∧ v ≤ 0xFFFFFF then [] else [.wordRange v]⟩
  | .words, [.chars s] => .ok ⟨3 * (Operand.chars s).size, wordDigits? ops, []⟩
  | .words, [.hex s] => .ok ⟨3 * (Operand.hex s).size, wordDigits? ops, []⟩
  | .words, _ => .error .badWord
  | .reservedWords, [.number v] => .ok (reservation counter (3 * v) .negativeWords .afterWords)
  | .reservedWords, _ => .error .badWordReserve
  | .bytes, [.number v] => .ok ⟨1, byteDigits? ops, if 0 ≤ v ∧ v ≤ 0xFF then [] else [.byteRange v]⟩
  | .bytes, [.chars s] => .ok ⟨(Operand.chars s).size, byteDigits? ops, []⟩
  | .bytes, [.hex s] => .ok ⟨(Operand.hex s).size, byteDigits? ops, []⟩
  | .bytes, _ => .error .badByte
  | .reservedBytes, [.number v] => .ok (reservation counter v .negativeBytes .afterBytes)
  | .reservedBytes, _ => .error .badByteReserve

/-! ## The operands of commands -/

/-- What is wrong with the operands of a command, which must have the form that its size asks
for. -/
def formProblems (layout : Layout) (mnemonic : String) (size : Int) (ops : List Operand) :
    Except Fault (List Problem) :=
  let bad : Except Fault (List Problem) := .ok [.badOperands mnemonic size]
  if size = 1 then if ops.isEmpty then .ok [] else bad
  else if size = 2 then
    match ops with
    | [.number v] => .ok (if 0 ≤ v ∧ v ≤ 0xFF then [] else [.immediateRange v])
    | [.register _, .register _] => .ok []
    | [op] =>
      if op.isString then
        if 1 < op.size then op.stringValue.map fun v => [.stringTooLong v] else .ok []
      else bad
    | _ => bad
  else if size = 3 then
    match layout, ops with
    | .absolute, _ => .ok []
    | _, [.relative _] => .ok []
    | _, _ => bad
  else if size = 4 then
    match ops with
    | [.direct _] => .ok []
    | [.number v] => .ok (rangeProblems v (.operandOf mnemonic))
    | [op] =>
      if op.isString then op.stringValue.map fun v => rangeProblems v (.operandOf mnemonic) else bad
    | _ => bad
  else .ok []

/-- What is wrong with the operands of a command of a size.  The complaint about their form is made
up before they are looked at, so the size has to have a decimal form whatever they are. -/
def operandProblems (layout : Layout) (mnemonic : String) (size : Int) (ops : List Operand) :
    Except Fault (List Problem) :=
  if Text.hasDecimal size then formProblems layout mnemonic size ops else .error .noDecimal

/-- What is wrong with a command at the counter: its operands, then where it ends. -/
def commandProblems (layout : Layout) (counter : Int) (mnemonic : String) (size : Int)
    (ops : List Operand) :
    Except Fault (List Problem) :=
  match operandProblems layout mnemonic size ops with
  | .error x => .error x
  | .ok ps => (Problem.worded ps).map (· ++ rangeProblems (counter + size) (.afterCommand mnemonic))

/-- Operands may use only the chosen kinds of name. -/
def nameUseProblems (use : NameUse) (ops : List Operand) : List Problem :=
  if use = .directOnly ∧ ops.any (·.kind == .relative) then [.relativeOperand]
  else if use = .relativeOnly ∧ ops.any (·.kind == .direct) then [.directOperand]
  else []

/-- Whether the choice of name use is looked at in a dialect. -/
def Dialect.nameUseProblems (d : Dialect) (use : NameUse) (ops : List Operand) : List Problem :=
  if d = .absoluteTwoPass then [] else Assembler.nameUseProblems use ops

end Assembler
