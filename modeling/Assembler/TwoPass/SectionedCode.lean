import Assembler.Listing
import Assembler.Statement
import Assembler.TwoPass.Sectioned
import Assembler.Written

/-! # Sectioned programs in two passes: the object code

Each section gives a header, a record for each of its lines, the modifications of the commands with
direct names, and an entry address.  A fault while a record of a command or an exported name is made
is reported; any other ends the run. -/

namespace Assembler.TwoPass.SectionedCode
open Assembler
set_option autoImplicit false

/-- What has been made so far. -/
structure Emission where
  records : List ObjectRecord
  /-- The addresses and operands of the section at hand that are to be modified. -/
  open_ : List (Int × String)
  /-- The modifications written. -/
  written : List Modification
  found : List Diagnostic
  deriving DecidableEq, Repr

/-- Rows of one section with their sizes. -/
structure Section where
  label : Option String
  rows : List (Row × Int)
  deriving DecidableEq, Repr

/-- Cuts rows where the section changes. -/
def sectionsOf : List (Row × Int) → List Section
  | [] => []
  | row :: rest =>
    match sectionsOf rest with
    | sec :: secs =>
      if sec.label = row.1.section_ then ⟨sec.label, row :: sec.rows⟩ :: secs
      else ⟨row.1.section_, [row]⟩ :: sec :: secs
    | [] => [⟨row.1.section_, [row]⟩]

namespace Section

def first (s : Section) : Int := (s.rows.head?.map (·.1.address)).getD 0

def last (s : Section) : Int := (s.rows.getLast?.map (·.1.address)).getD 0

def length (s : Section) : Int := s.last - s.first

end Section

/-- Writes the modifications of a section; an imported name is written with its address. -/
def writeModifications (dir : Directory) (label : Option String) :
    Emission → List (Int × String) → Except Fault Emission
  | e, [] => .ok e
  | e, (a, name) :: rest =>
    match dir.entry label name with
    | .error x => .error x
    | .ok entry =>
      let shown := if entry.linkage = some .imported then some name else none
      writeModifications dir label
        { e with
          records := e.records ++ [.modification a shown]
          written := e.written ++ [⟨a, name, label⟩] } rest

def Emission.add (e : Emission) (r : ObjectRecord) : Emission :=
  { e with records := e.records ++ [r] }

/-- Reports a problem at a row of a section. -/
def Emission.report (e : Emission) (sec : Section) (r : Row) (p : Problem) : Emission :=
  { e with found := e.found ++ [⟨.inSection sec.label r.address, p⟩] }

/-- The entry address of a section, which has to be the address of a row.  Only the two-pass dialect
writes the address it was given. -/
def addEntry (d : Dialect) (sec : Section) (r : Row) (e : Emission) : Emission :=
  let entry := (onlyNumber? r.line.operands).getD sec.first
  let e := if sec.rows.any (·.1.address == entry) then e else e.report sec r .badEntryPoint
  e.add (.finish (if d.strategy = .twoPass then entry else 0))

/-- The end of a section: its modifications, which are put down with their addresses in decimal
before they are written, and its entry address. -/
def closeSection (d : Dialect) (dir : Directory) (sec : Section) (r : Row) (e : Emission) :
    Except Fault Emission :=
  if e.open_.all fun m => Text.hasDecimal m.1 then
    (writeModifications dir sec.label e e.open_).map (addEntry d sec r)
  else .error .noDecimal

/-- Adds a record of a size, which is decimal. -/
def Emission.addSized (e : Emission) (size : Int) (r : ObjectRecord) : Except Fault Emission :=
  if Text.hasDecimal size then .ok (e.add r) else .error .noDecimal

/-- The records of lines other than commands and exports. -/
def addDirective (d : Dialect) (dir : Directory) (sec : Section) (r : Row) (size : Int)
    (e : Emission) :
    Except Fault Emission :=
  let m := r.line.mnemonic
  let ops := r.line.operands
  if m = Sectioned.sectionEnd ∨ m = "END" then closeSection d dir sec r e
  else if m = "START" ∨
    m = "CSECT" then .ok (e.add (.header r.line.label r.address (some sec.length)))
  else if m = "RESW" ∨ m = "RESB" then e.addSized size (.space r.address size)
  else if m = "EXTREF" then
    match ops with
    | [] => .error .elementAbsent
    | op :: _ => op.written.map fun name => e.add (.reference name)
  else if m = "BYTE" then e.addSized size (.data r.address size (Field.shown (byteDigits? ops)))
  else if m = "WORD" then e.addSized size (.data r.address size (Field.shown (wordDigits? ops)))
  else .ok e

def definitionRecord (d : Dialect) (scope : Scope) (ops : List Operand) :
    Except Fault ObjectRecord :=
  match Field.ofOperands d scope 4 ops with
  | .error x => .error x
  | .ok field =>
    match ops with
    | [] => .error .elementAbsent
    | op :: _ => op.written.map fun name => .definition name (Field.shown field)

/-- Adds the record of an exported name. -/
def addExport (d : Dialect) (scope : Scope) (r : Row) (e : Emission) :
    Except (Emission × Fault) Emission :=
  if r.line.mnemonic = "EXTDEF" then
    match definitionRecord d scope r.line.operands with
    | .error x => .error (e, x)
    | .ok record => .ok (e.add record)
  else .ok e

/-- Notes the operands of a command with direct names, by their texts, up to the first that has
none. -/
def Emission.noteOpen (e : Emission) (a : Int) (ops : List Operand) :
    Except (Emission × Fault) Emission :=
  if Addressing.ofOperands ops = .direct then
    let noted :=
      { e with open_ := e.open_ ++ (ops.takeWhile Operand.hasText).map fun op => (a, op.text) }
    if ops.all Operand.hasText then .ok noted else .error (noted, .noDecimal)
  else .ok e

def addCommand (d : Dialect) (scope : Scope) (table : OpTable) (r : Row) (size : Int)
    (e : Emission) :
    Except (Emission × Fault) Emission :=
  let ops := r.line.operands
  match table.get? r.line.mnemonic with
  | none => .ok e
  | some op =>
    match Field.ofOperands d scope op.size ops with
    | .error x => .error (e, x)
    | .ok field =>
      match e.addSized size (.code r.address size (codeByte op.opcode ops) (Field.shown field)) with
      | .error x => .error (e, x)
      | .ok e => e.noteOpen r.address ops

def addRow (d : Dialect) (dir : Directory) (table : OpTable) (sec : Section) (e : Emission)
    (row : Row × Int) :
    Except Fault Emission :=
  let scope := Scope.ofDialect d dir sec.label (row.1.address + row.2)
  match addDirective d dir sec row.1 row.2 e with
  | .error x => .error x
  | .ok e =>
    match addExport d scope row.1 e >>= addCommand d scope table row.1 row.2 with
    | .ok e => .ok e
    | .error (e, x) => .ok (e.report sec row.1 (.fault x))

/-- Adds what the rows of a section give. -/
def addRows (d : Dialect) (dir : Directory) (table : OpTable) (sec : Section) :
    Emission → List (Row × Int) → Except Fault Emission
  | e, [] => .ok e
  | e, row :: rows =>
    match addRow d dir table sec e row with
    | .error x => .error x
    | .ok e' => addRows d dir table sec e' rows

def addSections (d : Dialect) (dir : Directory) (table : OpTable) :
    Emission → List Section → Except Fault Emission
  | e, [] => .ok e
  | e, sec :: secs =>
    match addRows d dir table sec { e with open_ := [] } sec.rows with
    | .error x => .error x
    | .ok e' => addSections d dir table e' secs

/-- The second pass.  At the end the modifications are put down with their addresses in decimal,
whether or not something was found wrong. -/
def make (d : Dialect) (dir : Directory) (table : OpTable) (rows : List Row) :
    Except Fault ObjectProgram :=
  match addSections d dir table ⟨[], [], [], []⟩ (sectionsOf (sizedRows rows)) with
  | .error x => .error x
  | .ok e =>
    if e.written.all fun m => Text.hasDecimal m.address
      then .ok (.unlessFound e.found e.records e.written)
    else .error .noDecimal

/-- The second pass on rows from outside. -/
def makeFromCells (d : Dialect) (dir : Directory) (table : OpTable) (rows : List (List RowCell)) :
    Except Fault ObjectProgram :=
  match Row.listOfCells 3 rows with
  | .error x => .error x
  | .ok rows => make d dir table rows

end Assembler.TwoPass.SectionedCode
