import Assembler.OnePass.Draft

/-! # Relocatable programs in one pass

As in absolute programs, but references wait in drafts, relative names wait too, and the end
directive lists the addresses that are modified when the program is placed. -/

namespace Assembler.OnePass.Relocatable
open Assembler
set_option autoImplicit false

def dialect : Dialect := ⟨.relocatable, .onePass⟩

/-- How far the pass has got. -/
structure State extends FlatFrame where
  /-- The addresses of commands with direct names. -/
  modified : List Int
  drafts : List Draft
  deriving DecidableEq, Repr

namespace State

def start : State := ⟨⟨.initial 0, ∅, ∅⟩, [], []⟩

def report (s : State) (n : Nat) (ps : List Problem) : State :=
  { s with found := s.found ++ (Site.line n).report ps }

def add (s : State) (r : Draft) : State := { s with drafts := s.drafts ++ [r] }

def moveTo (s : State) (counter : Int) : State :=
  { s with counter, visited := s.visited ++ [counter] }

def startLine (s : State) (n : Nat) (l : Line) : State :=
  let frame := s.commence .relocatable (fun _ => .line n) l
  ⟨⟨frame, s.names, s.waiting⟩, s.modified, s.drafts ++ [.header l.label frame.counter none]⟩

/-- Complains once for every line before the start directive. -/
def expectStarted (s : State) (n : Nat) : State :=
  if s.started then s else s.report n [.beforeStart]

/-- What the names stand for before the command at `next`. -/
def scope (s : State) (next : Int) : Scope := .ofDialect dialect (.ofNames s.names) (some "") next

/-- Replaces what can be replaced in a record; the operands are put down with their values in
decimal. -/
def fill (s : State) (r : Draft) : Except Fault Draft :=
  match r.fill (fun _ => true) s.scope with
  | .error x => .error x
  | .ok filled => if filled.hasText then .ok filled else .error .noDecimal

/-- Fills the records that wait for a name. -/
def fillWaiting (s : State) (name : String) : Except Fault State :=
  match s.waiting.get? name with
  | none => .ok s
  | some places =>
    (changeAll s.fill places s.drafts).map fun ds =>
      { s with drafts := ds, waiting := s.waiting.erase name }

def noteLabel (s : State) (n : Nat) (l : Line) : Except Fault State :=
  match l.name? with
  | none => .ok s
  | some name =>
    if isTaken s.names name then .ok (s.report n [.duplicateLabel name])
    else
      fillWaiting
        { s.report n (rangeProblems s.counter (.label name)) with
          names := s.names.insert name (some s.counter) } name

/-- The entry address that an end directive leaves. -/
def entryPoint (s : State) (l : Line) : Int := (onlyNumber? l.operands).getD s.origin

/-- An end directive; there has to be a first record to hold the length. -/
def endLine (s : State) (n : Nat) (l : Line) : Except Fault State :=
  let ps := (if isOptionalNumber l.operands then [] else [.badEndOperand]) ++
    (if s.visited.contains (s.entryPoint l) then [] else [.badEntryPoint])
  match s.drafts with
  | [] => .error .elementAbsent
  | first :: rest =>
    let drafts := first.setLength (s.counter - s.origin) :: rest
    .ok
      { s.report n ps with
        ended := true
        drafts := drafts ++ s.modified.map (.modification · none) ++ [.finish (s.entryPoint l)] }

def storageLine (kind : Storage) (s : State) (n : Nat) (l : Line) : Except Fault State :=
  match kind.allot s.counter l.operands with
  | .error p => .ok (s.report n [p])
  | .ok a =>
    (Problem.worded a.problems).map fun ps =>
      ((s.report n ps).add (.ofAllotment a s.counter)).moveTo (s.counter + a.size)

/-- Notes a command whose address is modified. -/
def noteModified (s : State) (ops : List Operand) : State :=
  if Addressing.ofOperands ops = .direct then { s with modified := s.modified ++ [s.counter] }
    else s

/-- A command of the operation table; its field has to have a form at once, names apart. -/
def commandLine (use : NameUse) (op : Operation) (s : State) (n : Nat) (l : Line) :
    Except Fault State :=
  let ops := l.operands
  let next := s.counter + op.size
  match commandProblems .relocatable s.counter l.mnemonic op.size ops with
  | .error x => .error x
  | .ok ps =>
    match Field.inOnePass dialect (s.scope next) op.size ops with
    | .error x => .error x
    | .ok _ =>
      (s.fill (.code s.counter op.size (some (codeByte op.opcode ops)) ops)).map fun r =>
        (((s.report n (ps ++ nameUseProblems use ops)).add r).noteModified ops).moveTo next

/-- Lets the names in a line wait. -/
def waitForAll (s : State) (l : Line) : State :=
  ⟨s.await .relocatable s.drafts.length l, s.modified, s.drafts⟩

/-- A line whose label is noted already. -/
def bodyLine (use : NameUse) (stmt : Statement) (s : State) (n : Nat) (l : Line) :
    Except Fault State :=
  match stmt with
  | .finish => s.endLine n l
  | .storage kind => (s.storageLine kind n l).map (·.waitForAll l)
  | .command op => (s.commandLine use op n l).map (·.waitForAll l)
  | _ => .ok ((s.report n [.unknownCommand l.mnemonic]).waitForAll l)

def line (table : OpTable) (use : NameUse) (s : State) (n : Nat) (l : Line) : Except Fault State :=
  takeIn (·.startLine n l) (fun s => (s.expectStarted n).noteLabel n l)
    (fun stmt s => s.bodyLine use stmt n l) (Statement.ofMnemonic .relocatable table l.mnemonic) s

/-- Looks at the program as a whole. -/
def close (s : State) : State :=
  let ps := (if s.started then [] else [.noStart]) ++ (if s.ended then [] else [.noEnd]) ++
    rangeProblems s.counter .programEnd ++ s.waiting.keys.map .undefinedReference
  { s with found := s.found ++ Site.program.report ps }

/-- What is shown; every record has to be printable even if it is not shown. -/
def view (s : State) : Except Fault Snapshot :=
  (Draft.records dialect s.drafts).map fun rs =>
    ⟨if s.found.isEmpty then some rs else none, .flat s.names, s.found⟩

end State

def pass (table : OpTable) (use : NameUse) : Pass State where
  step := State.line table use
  shows := showsAfter .relocatable table
  ended := (·.ended)
  close := State.close
  view := State.view

/-- Everything the pass shows of a program. -/
def trace (table : OpTable) (use : NameUse) (program : List Line) : Trace :=
  (pass table use).trace .start 1 program

end Assembler.OnePass.Relocatable
