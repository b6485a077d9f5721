import Assembler.Listing
import Assembler.Statement

/-! # Flat programs in two passes: the object code

The object program is a header, a record for each line that takes space, in relocatable programs a
modification for each command with a direct name, and the entry address.  An undefined name is
reported; any other fault ends the run. -/

namespace Assembler.TwoPass.FlatCode
open Assembler
set_option autoImplicit false

/-- What has been made of the rows so far. -/
structure Emission where
  records : List ObjectRecord
  modified : List Int
  found : List Diagnostic
  deriving DecidableEq, Repr

/-- The site of a problem with a row. -/
def rowSite (layout : Layout) (r : Row) : Site :=
  match layout with
  | .absolute => .line r.address
  | _ => .address r.address

/-- The record of a storage directive. -/
def storageRecord? (r : Row) (size : Int) : Option ObjectRecord :=
  let m := r.line.mnemonic
  if m = "RESW" ∨ m = "RESB" then some (.space r.address size)
  else if m = "BYTE" then some (.data r.address size (Field.shown (byteDigits? r.line.operands)))
  else if m = "WORD" then some (.data r.address size (Field.shown (wordDigits? r.line.operands)))
  else none

/-- Adds the record of a storage directive; sizes are decimal. -/
def addStorage (r : Row) (size : Int) (e : Emission) : Except Fault Emission :=
  match storageRecord? r size with
  | none => .ok e
  | some record =>
    if Text.hasDecimal size then .ok { e with records := e.records ++ [record] }
      else .error .noDecimal

/-- Adds the record of a command of a size that can be written. -/
def addSizedCommand (d : Dialect) (dir : Directory) (placed : Bool) (op : Operation) (r : Row)
    (size : Int) (e : Emission) :
    Except Fault Emission :=
  let ops := r.line.operands
  let scope := Scope.ofDialect d dir none (r.address + size)
  match Field.ofOperands d scope op.size ops with
  | .error (.undefinedName d' use name) =>
    .ok { e with found := e.found ++ [⟨rowSite d.layout r, .fault (.undefinedName d' use name)⟩] }
  | .error x => .error x
  | .ok field =>
    let relocatable := d.layout == .relocatable
    let addressing := Addressing.ofOperands ops
    .ok
      { records := e.records ++ [.code r.address size (codeByte op.opcode ops) (Field.shown field)]
        modified := e.modified ++ (if relocatable && addressing == .direct then [r.address] else [])
        found := e.found ++
          (if relocatable && placed && addressing == .relative
            then [⟨rowSite d.layout r, .relativeInAbsolute⟩] else []) }

/-- Adds the record of a command; sizes are decimal. -/
def addCommand (d : Dialect) (dir : Directory) (placed : Bool) (op : Operation) (r : Row)
    (size : Int) (e : Emission) :
    Except Fault Emission :=
  if Text.hasDecimal size then addSizedCommand d dir placed op r size e else .error .noDecimal

/-- Adds what a row of a size gives. -/
def addRow (d : Dialect) (dir : Directory) (table : OpTable) (placed : Bool) (e : Emission)
    (row : Row × Int) :
    Except Fault Emission :=
  let m := row.1.line.mnemonic
  if m = "START" ∨ m = "END" then .ok e
  else
    match addStorage row.1 row.2 e with
    | .error x => .error x
    | .ok e =>
      match table.get? m with
      | none => .ok e
      | some op => addCommand d dir placed op row.1 row.2 e

def addRows (d : Dialect) (dir : Directory) (table : OpTable) (placed : Bool) :
    Emission → List (Row × Int) → Except Fault Emission
  | e, [] => .ok e
  | e, row :: rows =>
    match addRow d dir table placed e row with
    | .error x => .error x
    | .ok e' => addRows d dir table placed e' rows

/-- The entry address: the number after the end directive, else the load address; another operand is
a problem. -/
def entryPoint (first last : Row) : Int × List Problem :=
  match last.line.operands with
  | [] => (first.address, [])
  | .number v :: _ => (v, [])
  | op :: _ => (first.address, [.badEndKind (.operandKind "Адрес" .number op.kind)])

/-- The problems at the end of the program: the entry address has to be the address of a row. -/
def endProblems (rows : List Row) (first last : Row) : List Problem :=
  (entryPoint first last).2 ++
  (if rows.any (·.address == (entryPoint first last).1) then [] else [.badEntryPoint])

/-- The object program of rows between the first and the last one. -/
def between (d : Dialect) (dir : Directory) (table : OpTable) (rows : List Row) (first last : Row) :
    Except Fault ObjectProgram :=
  (addRows d dir table (first.address != 0) ⟨[], [], []⟩ (sizedRows rows)).map fun e =>
    let header := .header first.line.label first.address (some (last.address - first.address))
    let records :=
      header :: e.records ++ e.modified.map (.modification · none) ++
        [.finish (entryPoint first last).1]
    .unlessFound (e.found ++ Site.program.report (endProblems rows first last)) records []

/-- The second pass; there has to be a row. -/
def make (d : Dialect) (dir : Directory) (table : OpTable) (rows : List Row) :
    Except Fault ObjectProgram :=
  match rows.head?, rows.getLast? with
  | some first, some last => between d dir table rows first last
  | _, _ => .error .elementAbsent

/-- The second pass on rows from outside: a bad first or last row is reported, any other ends the
run. -/
def makeFromCells (d : Dialect) (dir : Directory) (table : OpTable) (rows : List (List RowCell)) :
    Except Fault ObjectProgram :=
  match rows.head?, rows.getLast? with
  | some first, some last =>
    match Row.ofCells 2 first, Row.ofCells 2 last with
    | .error x, _ => .ok (.refused [⟨.program, .badRow x⟩])
    | _, .error x => .ok (.refused [⟨.program, .badRow x⟩])
    | .ok _, .ok _ =>
      match Row.listOfCells 2 rows with
      | .error x => .error x
      | .ok rows => make d dir table rows
  | _, _ => .error .elementAbsent

end Assembler.TwoPass.FlatCode
