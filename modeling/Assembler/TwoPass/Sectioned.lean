import Assembler.Listing
import Assembler.Statement

/-! # Sectioned programs in two passes: the listing

Each section has its own counter and names.  A new section closes the one before it: the listing
gets a closing row with the operands of the section directive.  Names may be exported before or
after they are defined; imported names have no address. -/

namespace Assembler.TwoPass.Sectioned
open Assembler
set_option autoImplicit false

/-- The mnemonic of the row that closes a section. -/
def sectionEnd : String := "[ESECT]"

/-- How far the first pass has got. -/
structure Scan where
  counter : Int
  started : Bool
  ended : Bool
  /-- The section of the lines to come; before the start it has the empty label. -/
  current : Option String
  /-- The labels of the sections begun. -/
  begun : List (Option String)
  sections : Sections (Option Int)
  rows : List Row
  found : List Diagnostic
  deriving DecidableEq, Repr

namespace Scan

def start : Scan := ⟨0, false, false, some "", [], ∅, [], []⟩

def report (s : Scan) (n : Nat) (ps : List Problem) : Scan :=
  { s with found := s.found ++ (Site.line n).report ps }

def list (s : Scan) (l : Line) : Scan := { s with rows := s.rows ++ [⟨s.counter, l, s.current⟩] }

def moveTo (s : Scan) (counter : Int) : Scan := { s with counter }

/-- The names of the current section; before any section there are none. -/
def names (s : Scan) : Except Fault (SectionNames (Option Int)) :=
  match s.sections.get? s.current with
  | some ns => .ok ns
  | none => .error (.missingKey s.current)

/-- Replaces the names of the current section. -/
def setNames (s : Scan) (ns : SectionNames (Option Int)) : Scan :=
  { s with sections := s.sections.insert s.current ns }

/-- Begins a section, whose first line is given. -/
def begin (s : Scan) (l : Line) : Scan :=
  let s := { s with current := l.label, begun := s.begun ++ [l.label] }
  (s.list l).setNames ∅

/-- The load address that a start directive leaves. -/
def loadAddress (s : Scan) (l : Line) : Int := (onlyNumber? l.operands).getD s.counter

/-- The problems of a start directive. -/
def startProblems (s : Scan) (l : Line) : List Problem :=
  (if s.started then [.repeatedStart] else []) ++
  (if isOptionalNumber l.operands then [] else [.badStartOperand]) ++
  rangeProblems (s.loadAddress l) .load ++
  Layout.sectioned.loadProblems (s.loadAddress l) ++
  (if l.name?.isNone then [.unnamedStart] else [])

def startLine (s : Scan) (n : Nat) (l : Line) : Scan :=
  ({ s.report n (s.startProblems l) with started := true }.moveTo (s.loadAddress l)).begin l

/-- Complains once for every line before the start directive. -/
def expectStarted (s : Scan) (n : Nat) : Scan := if s.started then s else s.report n [.beforeStart]

def sectionLine (s : Scan) (n : Nat) (l : Line) : Scan :=
  let s := s.report n (if l.name?.isNone then [.unnamedSection] else [])
  let s := (s.list ⟨some "", ⟨sectionEnd, l.operands⟩⟩).moveTo 0
  let s := s.report n (if s.begun.contains l.label then [.repeatedSection l.label] else [])
  s.begin l

/-- Notes the label of a line: a new name, or an exported one that has no address yet. -/
def noteLabel (s : Scan) (n : Nat) (l : Line) : Except Fault Scan :=
  match l.name? with
  | none => .ok s
  | some name =>
    s.names.map fun ns =>
      match ns.get? name with
      | none => s.setNames (ns.insert name ⟨some s.counter, none⟩)
      | some e =>
        if e.linkage = some .exported ∧ e.address = none then
          s.setNames (ns.insert name ⟨some s.counter, e.linkage⟩)
        else s.report n [.clashingLabel]

def endLine (s : Scan) (n : Nat) (l : Line) : Scan :=
  { s.report n (if isOptionalNumber l.operands then [] else [.badEndOperand]) with ended := true
    }.list l

def storageLine (kind : Storage) (s : Scan) (n : Nat) (l : Line) : Except Fault Scan :=
  match kind.allot s.counter l.operands with
  | .error p => .ok ((s.list l).report n [p])
  | .ok a =>
    (Problem.worded a.problems).map fun ps => ((s.list l).report n ps).moveTo (s.counter + a.size)

/-- The name that an unlabelled export or import directive gives. -/
def linkedName? (l : Line) : Option String :=
  match l.name? with
  | none => onlyName? l.operands
  | some _ => none

def exportLine (s : Scan) (n : Nat) (l : Line) : Except Fault Scan :=
  let s := s.list l
  match linkedName? l with
  | none => .ok (s.report n [.badExport])
  | some name =>
    s.names.map fun ns =>
      match ns.get? name with
      | none => s.setNames (ns.insert name ⟨none, some .exported⟩)
      | some e =>
        if e.linkage = none then s.setNames (ns.insert name ⟨e.address, some .exported⟩)
        else s.report n [.repeatedExport]

def importLine (s : Scan) (n : Nat) (l : Line) : Except Fault Scan :=
  let s := s.list l
  match linkedName? l with
  | none => .ok (s.report n [.badImport])
  | some name =>
    s.names.map fun ns =>
      (s.report n (if ns.contains name then [.clashingImport] else [])).setNames
        (ns.insert name ⟨none, some .imported⟩)

/-- A command of the operation table. -/
def commandLine (use : NameUse) (op : Operation) (s : Scan) (n : Nat) (l : Line) :
    Except Fault Scan :=
  (commandProblems .sectioned s.counter l.mnemonic op.size l.operands).map fun ps =>
    ((s.list l).report n (ps ++ nameUseProblems use l.operands)).moveTo (s.counter + op.size)

/-- A line that lies in a section, its label being noted already. -/
def bodyLine (use : NameUse) (stmt : Statement) (s : Scan) (n : Nat) (l : Line) :
    Except Fault Scan :=
  match stmt with
  | .finish => .ok (s.endLine n l)
  | .storage kind => s.storageLine kind n l
  | .exportName => s.exportLine n l
  | .importName => s.importLine n l
  | .command op => s.commandLine use op n l
  | _ => .ok ((s.list l).report n [.unknownCommand l.mnemonic])

def line (table : OpTable) (use : NameUse) (s : Scan) (n : Nat) (l : Line) : Except Fault Scan :=
  match Statement.ofMnemonic .sectioned table l.mnemonic with
  | .start => .ok (s.startLine n l)
  | .newSection => .ok ((s.expectStarted n).sectionLine n l)
  | stmt =>
    match (s.expectStarted n).noteLabel n l with
    | .error x => .error x
    | .ok s' => s'.bodyLine use stmt n l

/-- The lines from the given number on, up to the end directive. -/
def lines (table : OpTable) (use : NameUse) : Scan → Nat → List Line → Except Fault Scan
  | s, _, [] => .ok s
  | s, n, l :: rest =>
    if s.ended then .ok s
    else
      match s.line table use n l with
      | .error x => .error x
      | .ok s' => lines table use s' (n + 1) rest

/-- A problem for every exported name without an address. -/
def exportProblems (s : Scan) : List Problem :=
  s.sections.entries.flatMap fun sec =>
    sec.2.entries.filterMap fun e =>
      if e.2.linkage = some .exported ∧ e.2.address = none then some .exportWithoutAddress else none

/-- The problems of the program as a whole. -/
def closingProblems (s : Scan) : List Problem :=
  (if s.started then [] else [.noStart]) ++ (if s.ended then [] else [.noEnd]) ++
    rangeProblems s.counter .programEnd ++ s.exportProblems

def allFound (s : Scan) : List Diagnostic := s.found ++ Site.program.report s.closingProblems

def listing (s : Scan) : Listing :=
  if s.allFound.isEmpty then .listed s.rows (.sectioned s.sections) else .refused s.allFound

/-- Whether all addresses of names have decimal forms. -/
def addressesWritable (s : Scan) : Bool :=
  s.sections.entries.all fun sec => sec.2.entries.all fun e => e.2.address.all Text.hasDecimal

end Scan

/-- The first pass.  At the end the names are put down with their addresses in decimal, whether or
not something was found wrong. -/
def list (table : OpTable) (use : NameUse) (program : List Line) : Except Fault Listing :=
  match Scan.start.lines table use 1 program with
  | .error x => .error x
  | .ok s => if s.addressesWritable then .ok s.listing else .error .noDecimal

end Assembler.TwoPass.Sectioned
