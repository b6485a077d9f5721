import Assembler.OnePass.Trace

/-! # Absolute programs in one pass

Records are written as the lines come.  The operand field of a command stays open at its end while a
name in it is undefined, and the address is appended when the name turns up as a label. -/

namespace Assembler.OnePass.Absolute
open Assembler
set_option autoImplicit false

def dialect : Dialect := ⟨.absolute, .onePass⟩

/-- How far the pass has got. -/
structure State extends FlatFrame where
  records : List ObjectRecord
  deriving DecidableEq, Repr

/-- Appends an address to the operand field of a record; only commands have one. -/
def appendAddress (a : Int) : ObjectRecord → ObjectRecord
  | .code at_ size byte field => .code at_ size byte (field ++ Text.hex .lower 6 a)
  | other => other

def setLength (n : Int) : ObjectRecord → ObjectRecord
  | .header label a _ => .header label a (some n)
  | other => other

namespace State

def start : State := ⟨⟨.initial 1, ∅, ∅⟩, []⟩

def report (s : State) (n : Nat) (ps : List Problem) : State :=
  { s with found := s.found ++ (Site.line n).report ps }

def add (s : State) (r : ObjectRecord) : State := { s with records := s.records ++ [r] }

def moveTo (s : State) (counter : Int) : State :=
  { s with counter, visited := s.visited ++ [counter] }

def startLine (s : State) (n : Nat) (l : Line) : State :=
  let frame := s.commence .absolute (fun _ => .line n) l
  ⟨⟨frame, s.names, s.waiting⟩, s.records ++ [.header l.label frame.counter none]⟩

/-- Complains once for every line before the start directive. -/
def expectStarted (s : State) (n : Nat) : State :=
  if s.started then s else s.report n [.beforeStart]

/-- Appends the address of a label to the records that wait for it. -/
def fillWaiting (s : State) (name : String) : Except Fault State :=
  match s.waiting.get? name with
  | none => .ok s
  | some places =>
    (changeAll (fun r => .ok (appendAddress s.counter r)) places s.records).map fun rs =>
      { s with records := rs, waiting := s.waiting.erase name }

def noteLabel (s : State) (n : Nat) (l : Line) : Except Fault State :=
  match l.name? with
  | none => .ok s
  | some name =>
    if isTaken s.names name then .ok (s.report n [.duplicateLabel name])
    else
      fillWaiting
        { s.report n (rangeProblems s.counter (.label name)) with
          names := s.names.insert name (some s.counter) } name

/-- The entry address that an end directive leaves. -/
def entryPoint (s : State) (l : Line) : Int := (onlyNumber? l.operands).getD s.origin

def endLine (s : State) (n : Nat) (l : Line) : State :=
  let ps := (if isOptionalNumber l.operands then [] else [.badEndOperand]) ++
    (if s.visited.contains (s.entryPoint l) then [] else [.badEntryPoint])
  let records := s.records.map (setLength (s.counter - s.origin))
  { s.report n ps with ended := true, records := records ++ [.finish (s.entryPoint l)] }

def storageRecord (a : Allotment) (counter : Int) : ObjectRecord :=
  match a.digits with
  | some ds => .data counter a.size ds
  | none => .space counter a.size

def storageLine (kind : Storage) (s : State) (n : Nat) (l : Line) : Except Fault State :=
  match kind.allot s.counter l.operands with
  | .error p => .ok (s.report n [p])
  | .ok a =>
    (Problem.worded a.problems).map fun ps =>
      ((s.report n ps).add (storageRecord a s.counter)).moveTo (s.counter + a.size)

/-- What the names stand for before the command at `next`. -/
def scope (s : State) (next : Int) : Scope := .ofDialect dialect (.ofNames s.names) (some "") next

/-- A command of the operation table.  Its record tells the size in decimal, as `commandProblems`
has found it can. -/
def commandLine (use : NameUse) (op : Operation) (s : State) (n : Nat) (l : Line) :
    Except Fault State :=
  let ops := l.operands
  let next := s.counter + op.size
  match commandProblems .absolute s.counter l.mnemonic op.size ops with
  | .error x => .error x
  | .ok ps =>
    (Field.inOnePass dialect (s.scope next) op.size ops).map fun field =>
      let record := .code s.counter op.size (codeByte op.opcode ops) (Field.shown field)
      ((s.report n (ps ++ nameUseProblems use ops)).add record).moveTo next

/-- Lets the names in a line wait. -/
def waitForAll (s : State) (l : Line) : State := ⟨s.await .absolute s.records.length l, s.records⟩

/-- A line whose label is noted already. -/
def bodyLine (use : NameUse) (stmt : Statement) (s : State) (n : Nat) (l : Line) :
    Except Fault State :=
  match stmt with
  | .finish => .ok (s.endLine n l)
  | .storage kind => (s.storageLine kind n l).map (·.waitForAll l)
  | .command op => (s.commandLine use op n l).map (·.waitForAll l)
  | _ => .ok ((s.report n [.unknownCommand l.mnemonic]).waitForAll l)

def line (table : OpTable) (use : NameUse) (s : State) (n : Nat) (l : Line) : Except Fault State :=
  takeIn (·.startLine n l) (fun s => (s.expectStarted n).noteLabel n l)
    (fun stmt s => s.bodyLine use stmt n l) (Statement.ofMnemonic .absolute table l.mnemonic) s

/-- A problem for every name without an address other than zero. -/
def openProblems (s : State) : List Problem :=
  s.names.entries.filterMap fun e => if isTaken s.names e.1 then none
    else some (.undefinedReference e.1)

/-- Looks at the program as a whole. -/
def close (s : State) : State :=
  let ps := (if s.started then [] else [.noStart]) ++ (if s.ended then [] else [.noEnd]) ++
    rangeProblems s.counter .programEnd ++ s.openProblems
  { s with found := s.found ++ Site.program.report ps }

def view (s : State) : Snapshot :=
  ⟨if s.found.isEmpty then some s.records else none, .flat s.names, s.found⟩

end State

def pass (table : OpTable) (use : NameUse) : Pass State where
  step := State.line table use
  shows := showsAfter .absolute table
  ended := (·.ended)
  close := State.close
  view s := .ok s.view

/-- Everything the pass shows of a program. -/
def trace (table : OpTable) (use : NameUse) (program : List Line) : Trace :=
  (pass table use).trace .start 1 program

end Assembler.OnePass.Absolute
