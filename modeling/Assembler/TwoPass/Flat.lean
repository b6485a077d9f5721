import Assembler.Listing
import Assembler.Statement

/-! # Flat programs in two passes: the listing

Absolute and relocatable programs have one counter and one table of labels.  The first pass goes
through the lines up to the end directive, puts each at the counter and moves the counter by the
space the line takes. -/

namespace Assembler.TwoPass.Flat
open Assembler
set_option autoImplicit false

/-- How far the first pass has got. -/
structure Scan where
  counter : Int
  started : Bool
  ended : Bool
  names : OrderedMap String Int
  rows : List Row
  found : List Diagnostic
  deriving DecidableEq, Repr

namespace Scan

def start (layout : Layout) : Scan := ⟨layout.origin, false, false, ∅, [], []⟩

def report (s : Scan) (n : Nat) (ps : List Problem) : Scan :=
  { s with found := s.found ++ (Site.line n).report ps }

def list (s : Scan) (l : Line) : Scan := { s with rows := s.rows ++ [⟨s.counter, l, none⟩] }

def moveTo (s : Scan) (counter : Int) : Scan := { s with counter }

/-- The load address that a start directive leaves. -/
def loadAddress (s : Scan) (l : Line) : Int := (onlyNumber? l.operands).getD s.counter

/-- The problems of a start directive. -/
def startProblems (layout : Layout) (s : Scan) (l : Line) : List Problem :=
  (if s.started then [.repeatedStart] else []) ++
  (if isOptionalNumber l.operands then [] else [.badStartOperand]) ++
  rangeProblems (s.loadAddress l) .load ++
  layout.loadProblems (s.loadAddress l) ++
  (if l.name?.isNone then [.unnamedStart] else [])

def startLine (layout : Layout) (s : Scan) (n : Nat) (l : Line) : Scan :=
  ({ s.report n (s.startProblems layout l) with started := true }.moveTo (s.loadAddress l)).list l

/-- Complains once for every line before the start directive. -/
def expectStarted (s : Scan) (n : Nat) : Scan := if s.started then s else s.report n [.beforeStart]

def noteLabel (s : Scan) (n : Nat) (l : Line) : Scan :=
  match l.name? with
  | none => s
  | some name =>
    if s.names.contains name then s.report n [.duplicateLabel name]
    else { s.report n (rangeProblems s.counter (.label name)) with
      names := s.names.insert name s.counter }

def endLine (s : Scan) (n : Nat) (l : Line) : Scan :=
  { s.report n (if isOptionalNumber l.operands then [] else [.badEndOperand]) with ended := true
    }.list l

def storageLine (kind : Storage) (s : Scan) (n : Nat) (l : Line) : Except Fault Scan :=
  match kind.allot s.counter l.operands with
  | .error p => .ok ((s.list l).report n [p])
  | .ok a =>
    (Problem.worded a.problems).map fun ps => ((s.list l).report n ps).moveTo (s.counter + a.size)

/-- A command of the operation table. -/
def commandLine (d : Dialect) (use : NameUse) (op : Operation) (s : Scan) (n : Nat) (l : Line) :
    Except Fault Scan :=
  (commandProblems d.layout s.counter l.mnemonic op.size l.operands).map fun ps =>
    ((s.list l).report n (ps ++ d.nameUseProblems use l.operands)).moveTo (s.counter + op.size)

def line (d : Dialect) (table : OpTable) (use : NameUse) (s : Scan) (n : Nat) (l : Line) :
    Except Fault Scan :=
  match Statement.ofMnemonic d.layout table l.mnemonic with
  | .start => .ok (s.startLine d.layout n l)
  | .finish => .ok (((s.expectStarted n).noteLabel n l).endLine n l)
  | .storage kind => ((s.expectStarted n).noteLabel n l).storageLine kind n l
  | .command op => ((s.expectStarted n).noteLabel n l).commandLine d use op n l
  | _ => .ok ((((s.expectStarted n).noteLabel n l).list l).report n [.unknownCommand l.mnemonic])

/-- The lines from the given number on, up to the end directive. -/
def lines (d : Dialect) (table : OpTable) (use : NameUse) :
    Scan → Nat → List Line → Except Fault Scan
  | s, _, [] => .ok s
  | s, n, l :: rest =>
    if s.ended then .ok s
    else
      match s.line d table use n l with
      | .error x => .error x
      | .ok s' => lines d table use s' (n + 1) rest

/-- The problems of the program as a whole. -/
def closingProblems (s : Scan) : List Problem :=
  (if s.started then [] else [.noStart]) ++ (if s.ended then [] else [.noEnd]) ++
    rangeProblems s.counter .programEnd

def allFound (s : Scan) : List Diagnostic := s.found ++ Site.program.report s.closingProblems

def listing (s : Scan) : Listing :=
  if s.allFound.isEmpty then .listed s.rows (.flat (s.names.mapValues some))
    else .refused s.allFound

end Scan

def list (d : Dialect) (table : OpTable) (use : NameUse) (program : List Line) :
    Except Fault Listing :=
  ((Scan.start d.layout).lines d table use 1 program).map Scan.listing

end Assembler.TwoPass.Flat
