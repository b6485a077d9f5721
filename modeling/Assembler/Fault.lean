import Assembler.Dialect
import Assembler.Operand
import Assembler.Text.Quoted

/-! # Faults

A fault ends the run it occurs in; what is only reported and goes on is a problem
(`Assembler.Problem`).  Each constructor is a cause, and `Fault.message` words it. -/

namespace Assembler
set_option autoImplicit false

/-- Where a text stopped being readable, and what was expected there; lines and columns count from
zero. -/
structure Unreadable where
  expected : String
  line : Nat
  column : Nat
  deriving DecidableEq, Repr

/-- The wording of an unreadable place. -/
def Unreadable.message (u : Unreadable) : String :=
  "expected: " ++ u.expected ++ " at " ++ Text.decimal u.line ++ ":" ++ Text.decimal u.column

/-- What ends a run. -/
inductive Fault where
  /-- A text is not of the wanted form. -/
  | unreadable (place : Unreadable)
  /-- A decimal literal is longer than the limit. -/
  | tooManyDigits (count : Nat)
  /-- A number has too many digits to be written in decimal. -/
  | noDecimal
  /-- A string constant has no value as a hexadecimal number. -/
  | notHexadecimal (text : String)
  /-- A text stands where a number is to be written. -/
  | notNumeric
  /-- The distance to an imported name is not known. -/
  | importedDisplacement
  /-- An operand is missing. -/
  | operandMissing (role : String)
  /-- An operand is not of the wanted kind. -/
  | operandKind (role : String) (wanted found : OperandKind)
  /-- A row has more cells than wanted. -/
  | rowTooLong (wanted : Nat)
  /-- A row has fewer cells than wanted. -/
  | rowTooShort (wanted found : Nat)
  /-- A name has no usable entry among the symbols. -/
  | undefinedName (dialect : Dialect) (use : Addressing) (name : String)
  /-- A table has no entry under a key. -/
  | missingKey (key : Option String)
  /-- A computation needs a number that is not there. -/
  | numberAbsent
  /-- The choice of name use was not handed over. -/
  | choiceAbsent
  /-- A list is too short for the wanted element. -/
  | elementAbsent
  /-- A record has no operands to be filled in. -/
  | operandsAbsent
  /-- A form has no such control, or a run was never prepared. -/
  | controlAbsent
  deriving DecidableEq, Repr

/-- The wording of the limit on decimal digits, with a remark in the middle. -/
def digitLimitText (remark : String) : String :=
  "Exceeds the limit (" ++ Text.decimal Text.decimalLimit ++
    " digits) for integer string conversion" ++ remark ++
      "; use sys.set_int_max_str_digits() to increase the limit"

/-- The wording for an undefined name. -/
def undefinedNameText (d : Dialect) (use : Addressing) (name : String) : String :=
  match d.layout, d.strategy, use with
  | .absolute, .twoPass, _ => "Undefined symbol: " ++ name
  | .relocatable, .onePass, .relative => "Неизвестое симолическое имя: " ++ name
  | .sectioned, .onePass, .direct => "Неизвестное символическое имя " ++ name
  | _, _, _ => "Неизвестное символическое имя: " ++ name

def Fault.message : Fault → String
  | .unreadable place => place.message
  | .tooManyDigits count => digitLimitText (": value has " ++ Text.decimal count ++ " digits")
  | .noDecimal => digitLimitText ""
  | .notHexadecimal text =>
    "invalid literal for int() with base 16: " ++ String.ofList ((Text.quoted text).toList.take 200)
  | .notNumeric => "Unknown format code 'X' for object of type 'str'"
  | .importedDisplacement => "Внешняя ссылка в относительной адресации"
  | .operandMissing role => role ++ ": операнд отсутствует"
  | .operandKind role wanted found =>
    role ++ ": ожидается " ++ wanted.name ++ ", получен " ++ found.name
  | .rowTooLong wanted => "too many values to unpack (expected " ++ Text.decimal wanted ++ ")"
  | .rowTooShort wanted found =>
    "not enough values to unpack (expected " ++ Text.decimal wanted ++ ", got " ++
      Text.decimal found ++ ")"
  | .undefinedName d use name => Text.quoted (undefinedNameText d use name)
  | .missingKey none => "None"
  | .missingKey (some key) => Text.quoted key
  | .numberAbsent => "no number here"
  | .choiceAbsent => "the choice of name use is missing"
  | .elementAbsent => "list index out of range"
  | .operandsAbsent => "the record has no operands"
  | .controlAbsent => "there is no such control"

/-- The operand itself if it is there and of the wanted kind; `none` wants any kind. -/
def Operand.demand (op : Option Operand) (wanted : Option OperandKind) (role : String) :
    Except Fault Operand :=
  match op, wanted with
  | none, _ => .error (.operandMissing role)
  | some op, none => .ok op
  | some op, some k => if op.kind = k then .ok op else .error (.operandKind role k op.kind)

end Assembler
