import Assembler.Grammar
import Assembler.OrderedMap

/-! # Operation tables

An operation has a code and a size in bytes.  Tables are read from a sheet of rows with three cells
each; a row without a mnemonic is passed over, a blank number counts as zero. -/

namespace Assembler
set_option autoImplicit false

/-- The code and the size of an operation. -/
structure Operation where
  opcode : Int
  size : Int
  deriving DecidableEq, Repr

/-- Operations by mnemonic, in the order of the sheet. -/
abbrev OpTable : Type := OrderedMap String Operation

/-- The table of a list of mnemonics, codes and sizes. -/
def OpTable.ofTriples (rows : List (String × Int × Int)) : OpTable :=
  OrderedMap.ofList (rows.map fun r => (r.1, ⟨r.2.1, r.2.2⟩))

/-! ## Sheets -/

/-- A row of a sheet; a cell may be missing. -/
structure SheetRow where
  mnemonic : Option String
  opcode : Option String
  size : Option String
  deriving DecidableEq, Repr

/-- What is wrong with a row. -/
inductive RowProblem where
  | repeatedMnemonic
  | registerMnemonic
  | directiveMnemonic
  | opcodeRange
  | sizeRange (allowed : List Int)
  | repeatedOpcode
  deriving DecidableEq, Repr

def RowProblem.text : RowProblem → String
  | .repeatedMnemonic => "Дублирующая мнемоника команды"
  | .registerMnemonic => "Мнемоника команды не должна совпадать с регистрами"
  | .directiveMnemonic => "Мнемоника команды не должна совпадать с директивами"
  | .opcodeRange => "Код операции не помещается в 6 бит"
  | .sizeRange allowed =>
    "Размер команды может быть только " ++ String.intercalate ", "
      (allowed.map fun n => Text.decimal n ++ "Б")
  | .repeatedOpcode => "Повтор кода операции"

/-- A row problem and the number of the row, counted from one. -/
structure RowDiagnostic where
  row : Nat
  problem : RowProblem
  deriving DecidableEq, Repr

/-- The wording of a row diagnostic. -/
def RowDiagnostic.text (x : RowDiagnostic) : String :=
  "Строка " ++ Text.decimal x.row ++ " (таблица кодов операций): " ++ x.problem.text

/-- The names of registers, with small digits, that no mnemonic may have. -/
def registerMnemonics : List String :=
  (List.range 15).map fun i => "R" ++ Text.hex .lower 0 (i + 1 : Nat)

/-- The directives that no mnemonic may have. -/
def directiveMnemonics : List String := ["START", "END", "WORD", "BYTE"]

/-- The sizes an operation may have where relative names are unknown. -/
def absoluteSizes : List Int := [1, 2, 4]

/-- The sizes an operation may have where relative names are known. -/
def allSizes : List Int := [1, 2, 3, 4]

/-- The sizes an operation of a dialect may have. -/
def Dialect.sizes (d : Dialect) : List Int := if d.hasRelative then allSizes else absoluteSizes

namespace Sheet

/-- The number in a cell; a missing or blank cell is zero, and what follows the number is not looked
at. -/
def cellNumber (d : Dialect) (cell : Option String) : Except Fault Int :=
  match cell with
  | none => .ok 0
  | some s =>
    if (Text.strip s).isEmpty then .ok 0
    else ((Grammar.number d).readFront s).map (·.1)

/-- The code and the size of a row; both are zero if one of them has too many digits. -/
def rowOperation (d : Dialect) (row : SheetRow) : Except Fault Operation :=
  match cellNumber d row.opcode with
  | .error (.tooManyDigits _) => .ok ⟨0, 0⟩
  | .error x => .error x
  | .ok opcode =>
    match cellNumber d row.size with
    | .error (.tooManyDigits _) => .ok ⟨0, 0⟩
    | .error x => .error x
    | .ok size => .ok ⟨opcode, size⟩

/-- The problems of a row that follows the rows of a table. -/
def rowProblems (sizes : List Int) (table : OpTable) (codes : List Int) (mnemonic : String)
    (op : Operation) :
    List RowProblem :=
  (if table.contains mnemonic then [.repeatedMnemonic] else []) ++
  (if registerMnemonics.contains mnemonic then [.registerMnemonic] else []) ++
  (if directiveMnemonics.contains mnemonic then [.directiveMnemonic] else []) ++
  (if 0 ≤ op.opcode * 4 + 1 ∧ op.opcode * 4 + 1 ≤ 0xFF then [] else [.opcodeRange]) ++
  (if sizes.contains op.size then [] else [.sizeRange sizes]) ++
  (if codes.contains op.opcode then [.repeatedOpcode] else [])

/-- A sheet that has been read: the table, the codes met, the problems. -/
structure Reading where
  table : OpTable
  codes : List Int
  problems : List RowDiagnostic
  deriving DecidableEq, Repr

def Reading.start : Reading := ⟨∅, [], []⟩

/-- Reads one more row, whose number is given. -/
def Reading.addRow (d : Dialect) (sizes : List Int) (s : Reading) (number : Nat) (row : SheetRow) :
    Except Fault Reading :=
  match row.mnemonic.map Text.strip with
  | none => .ok s
  | some mnemonic =>
    if mnemonic.isEmpty then .ok s
    else
      (rowOperation d row).map fun op =>
        let problems := rowProblems sizes s.table s.codes mnemonic op
        ⟨s.table.insert mnemonic op, s.codes ++ [op.opcode],
          s.problems ++ problems.map fun p => ⟨number, p⟩⟩

/-- Reads rows, the first of which has the given number. -/
def Reading.addRows (d : Dialect) (sizes : List Int) : Reading → Nat → List SheetRow →
    Except Fault Reading
  | s, _, [] => .ok s
  | s, n, row :: rows =>
    match s.addRow d sizes n row with
    | .error x => .error x
    | .ok s' => addRows d sizes s' (n + 1) rows

/-- Reads a sheet for a dialect with the given sizes. -/
def read (d : Dialect) (sizes : List Int) (rows : List SheetRow) : Except Fault Reading :=
  Reading.start.addRows d sizes 1 rows

end Sheet

end Assembler
