import Assembler.Symbols
import Assembler.Text.Literal

/-! # Values of operands

A scope says what the names of a dialect stand for at one place of a program.  A direct name stands
for its address, a relative one for the displacement from the following command: forward distances
as they are, backward ones in sixteen bits of two's complement. -/

namespace Assembler
set_option autoImplicit false

/-- What direct and relative names stand for. -/
structure Scope where
  direct : String → Except Fault Value
  relative : String → Except Fault Value

/-- The displacement from `next` to `target`. -/
def displacement (target next : Int) : Int :=
  if 0 < target - next then target - next else (target - next) % 0x10000

namespace Scope

/-- Names of flat programs, where an unknown address is handed on as it is. -/
def flat (d : Dialect) (dir : Directory) (next : Int) : Scope where
  direct name := (dir.value? name).elim (.error (.undefinedName d .direct name)) .ok
  relative name :=
    match dir.value? name with
    | some (.number a) => .ok (.number (displacement a next))
    | some _ => .error .numberAbsent
    | none => .error (.undefinedName d .relative name)

/-- A direct name whose address has to be known. -/
def knownDirect (d : Dialect) (dir : Directory) (name : String) : Except Fault Value :=
  match dir.value? name with
  | some .absent | none => .error (.undefinedName d .direct name)
  | some v => .ok v

/-- A relative name whose address has to be known. -/
def knownRelative (d : Dialect) (dir : Directory) (next : Int) (name : String) :
    Except Fault Value :=
  match dir.value? name with
  | some (.number a) => .ok (.number (displacement a next))
  | _ => .error (.undefinedName d .relative name)

/-- A relative name of a section; a name without an address is taken for an imported one. -/
def sectionRelative (d : Dialect) (dir : Directory) (section_ : Option String) (next : Int)
    (name : String) :
    Except Fault Value :=
  match dir.entry section_ name with
  | .ok e =>
    match e.address with
    | .number a => .ok (.number (displacement a next))
    | .absent => .error .importedDisplacement
    | .text _ => .error (.undefinedName d .relative name)
  | .error _ => .error (.undefinedName d .relative name)

/-- A direct name of a section; a name without an address counts as zero. -/
def sectionDirect (d : Dialect) (dir : Directory) (section_ : Option String) (name : String) :
    Except Fault Value :=
  match dir.entry section_ name with
  | .ok e => .ok (if e.address = .absent then .number 0 else e.address)
  | .error _ => .error (.undefinedName d .direct name)

/-- A direct name of a section told by its linkage: imported names count as zero. -/
def linkedDirect (d : Dialect) (dir : Directory) (section_ : Option String) (name : String) :
    Except Fault Value :=
  match dir.entry section_ name with
  | .ok e =>
    if e.linkage = some .imported then .ok (.number 0)
    else if e.address = .absent then .error (.undefinedName d .direct name)
    else .ok e.address
  | .error _ => .error (.undefinedName d .direct name)

/-- A relative name of a section told by its linkage: imported names have no displacement. -/
def linkedRelative (d : Dialect) (dir : Directory) (section_ : Option String) (next : Int)
    (name : String) :
    Except Fault Value :=
  match dir.entry section_ name with
  | .ok e =>
    if e.linkage = some .imported then .error .importedDisplacement
    else
      match e.address with
      | .number a => .ok (.number (displacement a next))
      | _ => .error (.undefinedName d .relative name)
  | .error _ => .error (.undefinedName d .relative name)

/-- The scope of a dialect in a section, before the command at `next`. -/
def ofDialect (d : Dialect) (dir : Directory) (section_ : Option String) (next : Int) : Scope :=
  match d.layout, d.strategy with
  | .absolute, .twoPass | .relocatable, .twoPass => flat d dir next
  | .sectioned, .twoPass => ⟨sectionDirect d dir section_, sectionRelative d dir section_ next⟩
  | .absolute, .onePass => ⟨knownDirect d dir, sectionRelative d dir section_ next⟩
  | .relocatable, .onePass => ⟨knownDirect d dir, knownRelative d dir next⟩
  | .sectioned, .onePass => ⟨linkedDirect d dir section_, linkedRelative d dir section_ next⟩

end Scope

/-- The digits of a character string: at least two for each character. -/
def charDigits (s : String) : List Char :=
  s.toList.flatMap fun c => Text.padLeft 2 (Text.digits .lower 16 c.toNat)

/-- The number that a text stands for as a hexadecimal literal. -/
def hexValue (cs : List Char) : Except Fault Int :=
  match Text.hexLiteral? cs with
  | some v => .ok v
  | none => .error (.notHexadecimal (String.ofList cs))

namespace Operand

def stringValue : Operand → Except Fault Int
  | .hex s => hexValue s.toList
  | .chars s => hexValue (charDigits s)
  | _ => .error .numberAbsent

/-- The value of an operand in a scope. -/
def value (scope : Scope) : Operand → Except Fault Value
  | .direct name => scope.direct name
  | .relative name => scope.relative name
  | .number v => .ok (.number v)
  | .register i => .ok (.number (i % 16))
  | .chars s => (hexValue (charDigits s)).map .number
  | .hex s => (hexValue s.toList).map .number

/-- The values of operands from left to right. -/
def values (scope : Scope) : List Operand → Except Fault (List Value)
  | [] => .ok []
  | op :: ops =>
    match op.value scope with
    | .error x => .error x
    | .ok v => (values scope ops).map (v :: ·)

end Operand

end Assembler
