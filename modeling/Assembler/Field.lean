import Assembler.Scope

/-! # Digits of operands and data

The operand field of a code record is as wide as the size of the command leaves room for: a nibble
for each of two registers, a byte, a displacement or an address.  Operands that have no form of the
size leave the field absent.  Data are written two digits a byte and six a word. -/

namespace Assembler
set_option autoImplicit false

/-- The width of each value of a field. -/
inductive FieldWidth where
  /-- Nothing is written. -/
  | nothing
  | nibble
  | byte
  | displacement
  | address
  deriving DecidableEq, Repr

namespace FieldWidth

def format (w : FieldWidth) (n : Int) : String :=
  match w with
  | .nothing => ""
  | .nibble => Text.hex .lower 1 n
  | .byte => Text.hex .lower 2 n
  | .displacement => Text.hex .upper 4 n
  | .address => Text.hex .upper 6 n

/-- Values in a width; only numbers can be written, except where nothing is. -/
def formatAll (w : FieldWidth) : List Value → Except Fault String
  | [] => .ok ""
  | v :: vs =>
    match w, v with
    | .nothing, _ => .ok ""
    | _, .number n => (formatAll w vs).map (w.format n ++ ·)
    | _, .absent => .error .numberAbsent
    | _, .text _ => .error .notNumeric

/-- Whether operands are one string constant. -/
def isOneString : List Operand → Bool
  | [op] => op.isString
  | _ => false

/-- The width for the operands of a source line. -/
def ofSource? (size : Int) (ops : List Operand) : Option FieldWidth :=
  if size = 1 then some .nothing
  else
    let byKind : Option FieldWidth :=
      if size = 2 then
        match ops with
        | [.register _, .register _] => some .nibble
        | [.number _] | [.chars _] | [.hex _] => some .byte
        | _ => none
      else if size = 3 then
        match ops with
        | [.relative _] => some .displacement
        | _ => none
      else none
    byKind <|> if size = 4 || isOneString ops then some .address else none

/-- The width for operands that were replaced by their values. -/
def ofResolved? (size : Int) (ops : List Operand) : Option FieldWidth :=
  if size = 1 then some .nothing
  else
    let byKind : Option FieldWidth :=
      if size = 2 then
        match ops with
        | [.number _, .number _] => some .nibble
        | [.number _] | [.chars _] | [.hex _] => some .byte
        | _ => none
      else if size = 3 then
        match ops with
        | [.number _] => some .displacement
        | _ => none
      else none
    byKind <|> if size = 4 || isOneString ops then some .address else none

end FieldWidth

/-- Values one after another in plain form, which is decimal for numbers. -/
def plainValues (vs : List Value) : Except Fault String :=
  if vs.all Value.hasPlain then .ok (String.join (vs.map Value.plain)) else .error .noDecimal

namespace Field

/-- The field of values: what cannot be written in the width is a fault. -/
def strict (width : Option FieldWidth) (vs : List Value) : Except Fault (Option String) :=
  match width with
  | none => .ok none
  | some w => (w.formatAll vs).map some

/-- The field of values: if one cannot be written in the width, all are written plainly. -/
def lenient (width : Option FieldWidth) (vs : List Value) : Except Fault (Option String) :=
  match width with
  | none => .ok none
  | some w =>
    match w.formatAll vs with
    | .ok s => .ok (some s)
    | .error _ => (plainValues vs).map some

/-- The field in the object code of two passes. -/
def ofOperands (d : Dialect) (scope : Scope) (size : Int) (ops : List Operand) :
    Except Fault (Option String) :=
  match Operand.values scope ops with
  | .error x => .error x
  | .ok vs =>
    match d.layout, d.strategy with
    | .absolute, .twoPass | .relocatable, .twoPass => strict (FieldWidth.ofSource? size ops) vs
    | _, _ => lenient (FieldWidth.ofSource? size ops) vs

/-- A field that stays empty as long as a name in it is undefined. -/
def pending (width : Option FieldWidth) (scope : Scope) (ops : List Operand) :
    Except Fault (Option String) :=
  match Operand.values scope ops with
  | .error (.undefinedName _ _ _) => .ok (some "")
  | .error x => .error x
  | .ok vs => lenient width vs

/-- The field in the records of one pass: absolute programs look at the operands as written, the
others at what has become of them. -/
def inOnePass (d : Dialect) (scope : Scope) (size : Int) (ops : List Operand) :
    Except Fault (Option String) :=
  match d.layout with
  | .absolute => pending (FieldWidth.ofSource? size ops) scope ops
  | _ => pending (FieldWidth.ofResolved? size ops) scope ops

def shown (field : Option String) : String := field.getD "None"

end Field

/-! ## Data -/

/-- Fills digits up with zeros from the left to a multiple of `n`. -/
def padToMultiple (n : Nat) (ds : List Char) : List Char :=
  List.replicate ((n - ds.length % n) % n) '0' ++ ds

def byteDigits? : List Operand → Option String
  | [.number v] => some (Text.hex .lower 2 v)
  | [.chars s] =>
    some (String.ofList (s.toList.flatMap fun c => Text.padLeft 2 (Text.digits .lower 16 c.toNat)))
  | [.hex ds] => some (String.ofList (padToMultiple 2 ds.toList))
  | _ => none

def wordDigits? : List Operand → Option String
  | [.number v] => some (Text.hex .upper 6 v)
  | [.chars s] =>
    some (String.ofList (s.toList.flatMap fun c => Text.padLeft 6 (Text.digits .upper 16 c.toNat)))
  | [.hex ds] => some (String.ofList (padToMultiple 6 ds.toList))
  | _ => none

/-- The code byte of a command: the operation code and the addressing in the two low bits. -/
def codeByte (opcode : Int) (ops : List Operand) : Int :=
  opcode * 4 + (Addressing.ofOperands ops).code

end Assembler
