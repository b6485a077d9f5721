import Assembler.OnePass.Trace
import Assembler.Written

/-! # Records under way

In relocatable and sectioned programs a record keeps the operands of its command until the names in
them are defined; then they are replaced by their values.  Printing a draft gives an object record,
whose field is empty while a name is left. -/

namespace Assembler.OnePass
open Assembler
set_option autoImplicit false

/-- A record under way. -/
inductive Draft where
  | header (label : Option String) (address : Int) (length : Option Int)
  /-- A command; without a code byte the record holds its operands only. -/
  | code (address size : Int) (byte : Option Int) (operands : List Operand)
  | data (address size : Int) (digits : String)
  | space (address size : Int)
  /-- An exported name and what has become of it. -/
  | definition (name : Operand) (operands : List Operand)
  | reference (name : String)
  | modification (address : Int) (name : Option String)
  | finish (entry : Int)
  deriving DecidableEq, Repr

namespace Draft

/-- The size of the record of an exported name. -/
def definitionSize : Int := 4

/-- The scope in which no name is defined. -/
def bareScope (d : Dialect) (next : Int) : Scope := .ofDialect d .absent none next

def record (d : Dialect) : Draft → Except Fault ObjectRecord
  | .header label a n => .ok (.header label a n)
  | .code a size byte ops =>
    (Field.inOnePass d (bareScope d (size + a)) size ops).map fun field =>
      match byte with
      | some b => .code a size b (Field.shown field)
      | none => .data a size (Field.shown field)
  | .data a size ds => .ok (.data a size ds)
  | .space a size => .ok (.space a size)
  | .definition name ops =>
    (Field.inOnePass d (bareScope d definitionSize) definitionSize ops).map fun field =>
      .definition name.text (Field.shown field)
  | .reference name => .ok (.reference name)
  | .modification a name => .ok (.modification a (if name = some "" then none else name))
  | .finish a => .ok (.finish a)

def records (d : Dialect) : List Draft → Except Fault (List ObjectRecord)
  | [] => .ok []
  | r :: rest =>
    match r.record d with
    | .error x => .error x
    | .ok o => (records d rest).map (o :: ·)

/-- Gives a record its length: of a header that of the program, of the others their own. -/
def setLength (n : Int) : Draft → Draft
  | .header label a _ => .header label a (some n)
  | .code a _ byte ops => .code a n byte ops
  | .data a _ ds => .data a n ds
  | .space a _ => .space a n
  | other => other

/-- An operand replaced by its value; it stays as it is upon faults that are forgiven. -/
def settle (forgive : Fault → Bool) (scope : Scope) (op : Operand) : Except Fault Operand :=
  match op.value scope with
  | .ok (.number v) => .ok (.number v)
  | .ok _ => .ok op
  | .error x => if forgive x then .ok op else .error x

/-- Operands replaced by their values. -/
def settleAll (forgive : Fault → Bool) (scope : Scope) : List Operand → Except Fault (List Operand)
  | [] => .ok []
  | op :: ops =>
    match settle forgive scope op with
    | .error x => .error x
    | .ok v => (settleAll forgive scope ops).map (v :: ·)

/-- Replaces the operands of a record by their values; `scope` depends on the address of the next
command. -/
def fill (forgive : Fault → Bool) (scope : Int → Scope) : Draft → Except Fault Draft
  | .code a size byte ops =>
    (settleAll forgive (scope (a + size)) ops).map fun vs => .code a size byte vs
  | .definition name ops =>
    (settleAll forgive (scope definitionSize) ops).map fun vs => .definition name vs
  | .header _ _ none => .error .numberAbsent
  | _ => .error .operandsAbsent

/-- Whether the operands of a record have texts. -/
def hasText : Draft → Bool
  | .code _ _ _ ops => ops.all Operand.hasText
  | .definition _ ops => ops.all Operand.hasText
  | _ => true

def ofAllotment (a : Allotment) (counter : Int) : Draft :=
  match a.digits with
  | some ds => .data counter a.size ds
  | none => .space counter a.size

end Draft

end Assembler.OnePass
