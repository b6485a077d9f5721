import Assembler.Assembly
import Assembler.Window.Tables

/-! # The window

A window holds what its owner types (the source, the sheet of operations, the choice of name use),
what it shows (messages, tables, object code, the state of a button), and what it remembers between
events.  There are three ways of controlling it: the basic one runs a pass on each click; the
guarded one also takes back results when the source or the choice changes and offers the second pass
only after a first one; the stepping one prepares a run of one pass whenever something changes, to
be followed step by step or at once. -/

namespace Assembler.Window
open Assembler
set_option autoImplicit false

/-- How a window is controlled. -/
inductive Control where
  | basic
  | guarded
  | stepping
  deriving DecidableEq, Repr

/-- The control that belongs to a dialect. -/
def Control.ofDialect (d : Dialect) : Control :=
  match d.strategy with
  | .onePass => .stepping
  | .twoPass => if d.layout = .absolute then .basic else .guarded

/-- A run that is followed step by step. -/
inductive Session where
  /-- Nothing has been changed yet, so no run was prepared. -/
  | unprepared
  /-- The last change left nothing to run. -/
  | idle
  /-- What the run is still going to show. -/
  | running (rest : OnePass.Trace)
  deriving DecidableEq, Repr

/-- A window. -/
structure State where
  dialect : Dialect
  control : Control
  source : String
  choice : Int
  sheet : Grid
  firstErrors : List String
  secondErrors : List String
  code : List String
  listing : Grid
  names : Grid
  modifications : Grid
  /-- Whether the button of the second pass can be clicked, and its style. -/
  secondEnabled : Bool
  secondStyle : String
  /-- The results of the first pass that the second one uses. -/
  rows : Option (List Row)
  symbols : Option Symbols
  table : Option OpTable
  firstDone : Bool
  secondDone : Bool
  session : Session
  deriving DecidableEq, Repr

/-- The operations a new window offers. -/
def firstSheet : Grid :=
  .ofRows ["Мнемоника", "Код операции", "Размер"] <|
    [["LOAD", "1", "2"], ["LOADI", "2", "4"], ["STORE", "3", "4"], ["ADD", "4", "2"],
      ["SUB", "5", "2"], ["JMP", "6", "4"], ["JZ", "7", "4"], ["HALT", "8", "1"],
      ["NOP", "9", "1"]].map textRow

/-- The buttons of a window. -/
inductive Button where
  | firstPass
  | secondPass
  | tracePass
  | clearFirst
  | clearSecond
  deriving DecidableEq, Repr

def Button.ofName? : String → Option Button
  | "firstPass" => some .firstPass
  | "secondPass" => some .secondPass
  | "tracePass" => some .tracePass
  | "clearFirst" => some .clearFirst
  | "clearSecond" => some .clearSecond
  | _ => none

/-- The buttons of the form of a dialect. -/
def formButtons (d : Dialect) : List Button :=
  match d.strategy with
  | .twoPass => [.firstPass, .secondPass, .clearFirst, .clearSecond]
  | .onePass => [.firstPass, .tracePass, .clearFirst]

/-- Whether the form of a dialect lets its owner choose the name use. -/
def formHasChoice (d : Dialect) : Bool := d.layout != .absolute

namespace State

/-- The styles of the second button. -/
def styleFor (firstDone secondDone : Bool) : String :=
  if secondDone then "background-color: #90EE90;"
  else if firstDone then "background-color: #FFFFE0;"
  else ""

/-- Brings the second button up to date. -/
def refresh (w : State) : State :=
  { w with
    secondEnabled := w.firstDone && !w.secondDone
    secondStyle := styleFor w.firstDone w.secondDone }

def blank (d : Dialect) (control : Control) : State where
  dialect := d
  control := control
  source := ""
  choice := 0
  sheet := firstSheet
  firstErrors := []
  secondErrors := []
  code := []
  listing := .empty
  names := .empty
  modifications := .empty
  secondEnabled := true
  secondStyle := ""
  rows := none
  symbols := none
  table := none
  firstDone := false
  secondDone := false
  session := .unprepared

/-- Opens a window.  The two-pass controls need the button of the second pass. -/
def create (d : Dialect) (control : Control) : Except Fault State :=
  match control with
  | .stepping => .ok (blank d control)
  | .basic =>
    if (formButtons d).contains .secondPass then .ok (blank d control) else .error .controlAbsent
  | .guarded =>
    if (formButtons d).contains .secondPass then .ok (blank d control).refresh
      else .error .controlAbsent

def sheetRows (w : State) : List SheetRow :=
  w.sheet.rows.map fun r => ⟨Grid.cell r 0, Grid.cell r 1, Grid.cell r 2⟩

/-- The sizes that operations may have; the basic control knows no relative names. -/
def sizes (w : State) : List Int := if w.control = .basic then absoluteSizes else w.dialect.sizes

def readSheet (w : State) : Except Fault Sheet.Reading := Sheet.read w.dialect w.sizes w.sheetRows

/-- The choice of name use; absolute programs of one pass use direct names only. -/
def use (w : State) : NameUse :=
  if formHasChoice w.dialect then .ofIndex w.choice else .directOnly

def texts (w : State) (found : List Diagnostic) : List String := found.map (·.text w.dialect)

end State

end Assembler.Window
