import Assembler.Window.State

/-! # Events

What happens to a window when something is typed or clicked.  A handler may end in a fault; what it
changed before stays changed. -/

namespace Assembler.Window
open Assembler
set_option autoImplicit false

/-- A window after an event, and the fault in which the handler ended. -/
structure Reaction where
  window : State
  fault : Option Fault
  deriving DecidableEq, Repr

def calm (w : State) : Reaction := ⟨w, none⟩

/-- A handler that ended in a fault. -/
def upset (w : State) (x : Fault) : Reaction := ⟨w, some x⟩

/-- The message of a second pass that comes too early. -/
def firstPassWanted : String := "Сделайте первый проход"

/-! ## The basic control -/

/-- Shows a listing, if it has rows. -/
def showRows (w : State) (table : OpTable) (rows : List Row) : Reaction :=
  if rows.isEmpty then calm w
  else
    let filling := listingTable w.dialect.layout table rows
    ⟨{ w with listing := filling.grid }, filling.fault⟩

/-- Shows symbols, if there are any. -/
def showSymbols (w : State) (symbols : Symbols) : Reaction :=
  if symbols.isEmpty then calm w
  else
    match namesTable w.dialect symbols with
    | .error x => upset w x
    | .ok names => calm { w with names }

/-- Goes on after a handler that came to its end. -/
def Reaction.next (r : Reaction) (f : State → Reaction) : Reaction :=
  if r.fault.isSome then r else f r.window

/-- Shows a listing and its symbols and remembers them. -/
def showListing (w : State) (table : OpTable) (rows : List Row) (symbols : Symbols) : Reaction :=
  ((showRows w table rows).next fun w => showSymbols w symbols).next fun w =>
    calm { w with rows := some rows, symbols := some symbols }

/-- The end of a first pass under the basic control. -/
def basicListing (w : State) (table : OpTable) : Listing → Reaction
  | .refused found =>
    calm { w with firstErrors := w.firstErrors ++ w.texts found, rows := none, symbols := none }
  | .listed rows symbols => showListing w table rows symbols

/-- A first pass under the basic control.  It hands no choice of name use over, so it works for the
plain absolute dialect only. -/
def basicFirst (w : State) : Reaction :=
  match Source.parse w.dialect w.source with
  | .error x => upset w x
  | .ok src =>
    let w := { w with firstErrors := w.firstErrors ++ src.messages }
    if !src.bad.isEmpty then calm w
    else
      match w.readSheet with
      | .error x => upset w x
      | .ok sheet =>
        let w := { w with firstErrors := w.firstErrors ++ sheet.problems.map RowDiagnostic.text }
        if !sheet.problems.isEmpty then calm w
        else
          let w := { w with table := some sheet.table }
          if w.dialect ≠ .absoluteTwoPass then upset w .choiceAbsent
          else
            match listProgram w.dialect sheet.table w.use src.lines with
            | .error x => upset w x
            | .ok listing => basicListing w sheet.table listing

/-- A second pass under the basic control. -/
def basicSecond (w : State) : Reaction :=
  match w.rows, w.symbols, w.table with
  | some rows, some symbols, some table =>
    match makeCode w.dialect (.ofSymbols symbols) table rows with
    | .error x => upset w x
    | .ok (.refused found) => calm { w with secondErrors := w.secondErrors ++ w.texts found }
    | .ok (.made records _) =>
      if records.isEmpty then calm w
        else calm { w with code := records.map (·.text w.dialect.codeStyle) }
  | _, _, _ => calm { w with secondErrors := w.secondErrors ++ [firstPassWanted] }

/-! ## The guarded control -/

/-- Takes back the results when something changes. -/
def guardedChange (w : State) : Reaction :=
  if w.firstDone || w.secondDone then
    calm { w with firstDone := false, secondDone := false, code := [], secondErrors := [] }.refresh
  else calm w

/-- The end of a first pass under the guarded control. -/
def guardedListing (w : State) (table : OpTable) : Listing → Reaction
  | .refused found =>
    calm
      { w with
        firstErrors := w.firstErrors ++ w.texts found
        firstDone := false
        listing := w.listing.clear
        names := w.names.clear }.refresh
  | .listed rows symbols =>
    (showListing { w with firstDone := true } table rows symbols).next fun w => calm w.refresh

/-- A first pass under the guarded control. -/
def guardedFirst (w : State) : Reaction :=
  let w := { w with secondDone := false, secondErrors := [], code := [] }
  match Source.parse w.dialect w.source with
  | .error x => upset w x
  | .ok src =>
    let w := { w with firstErrors := src.messages }
    if !src.bad.isEmpty then calm { w with firstDone := false }.refresh
    else
      match w.readSheet with
      | .error x => upset w x
      | .ok sheet =>
        let w := { w with firstErrors := w.firstErrors ++ sheet.problems.map RowDiagnostic.text }
        if !sheet.problems.isEmpty then calm { w with firstDone := false }.refresh
        else
          let w := { w with table := some sheet.table }
          match listProgram w.dialect sheet.table w.use src.lines with
          | .error x => upset w x
          | .ok listing => guardedListing w sheet.table listing

/-- Shows the records and, for sectioned programs, the modifications. -/
def showCode (w : State) (records : List ObjectRecord) (ms : List Modification) : State :=
  if records.isEmpty then w
  else
    { w with
      code := records.map (·.text w.dialect.codeStyle)
      modifications :=
        if w.dialect.layout = .sectioned then modificationTable ms else w.modifications }

/-- A second pass under the guarded control. -/
def guardedSecond (w : State) : Reaction :=
  match w.rows, w.symbols, w.table with
  | some rows, some symbols, some table =>
    let w := { w with code := [], secondErrors := [] }
    match makeCode w.dialect (.ofSymbols symbols) table rows with
    | .error x => upset w x
    | .ok (.refused found) =>
      calm { w with secondErrors := w.texts found, secondDone := false }.refresh
    | .ok (.made records ms) => calm { showCode w records ms with secondDone := true }.refresh
  | _, _, _ => calm { w with secondErrors := w.secondErrors ++ [firstPassWanted] }

/-! ## The stepping control -/

/-- Prepares a run when something changes. -/
def steppingChange (w : State) : Reaction :=
  let w := { w with session := .idle, code := [], firstErrors := [], names := w.names.reset }
  match Source.parse w.dialect w.source with
  | .error x => upset w x
  | .ok src =>
    match w.readSheet with
    | .error x => upset w x
    | .ok sheet =>
      let w := { w with firstErrors := src.messages ++ sheet.problems.map RowDiagnostic.text }
      if !sheet.problems.isEmpty then calm w
      else calm { w with
        session := .running (traceProgram w.dialect.layout sheet.table w.use src.lines) }

def showSnapshot (w : State) (s : OnePass.Snapshot) : Reaction :=
  let code := (s.records.getD []).map (·.text w.dialect.layout.traceStyle)
  let w := { w with code, names := w.names.reset }
  let shown := if s.symbols.isEmpty then .ok w.names else namesTable w.dialect s.symbols
  match shown with
  | .error x => upset w x
  | .ok names => calm { w with names, firstErrors := w.texts s.found }

/-- Whether a fault tells of a missing element or number. -/
def isAbsence : Fault → Bool
  | .elementAbsent | .numberAbsent | .choiceAbsent => true
  | _ => false

/-- Whether a fault tells of a missing number. -/
def isNumberAbsence : Fault → Bool
  | .numberAbsent | .choiceAbsent => true
  | _ => false

/-- Runs to the end and shows the last snapshot; a fault that tells of something missing is passed
over. -/
def runOut (w : State) : Reaction :=
  match w.session with
  | .unprepared => upset w .controlAbsent
  | .idle => calm w
  | .running rest =>
    let w := { w with session := .running .nothing }
    match rest.fault with
    | some x => if isAbsence x then calm w else upset w x
    | none =>
      match rest.snapshots.getLast? with
      | some s => showSnapshot w s
      | none => calm w

/-- The fault of a step; only sectioned programs tell of a missing number. -/
def stepFault (w : State) (x : Fault) : Reaction :=
  if isNumberAbsence x && w.dialect.layout != .sectioned then calm w else upset w x

def stepOn (w : State) : Reaction :=
  match w.session with
  | .unprepared => upset w .controlAbsent
  | .idle => stepFault w .numberAbsent
  | .running rest =>
    match rest.snapshots, rest.fault with
    | s :: more, _ => showSnapshot { w with session := .running ⟨more, rest.fault⟩ } s
    | [], some x => stepFault { w with session := .running .nothing } x
    | [], none => calm w

/-! ## Events -/

/-- Something is typed or clicked. -/
inductive Event where
  | editSource (text : String)
  | setRows (n : Nat)
  | editCell (row column : Int) (text : String)
  | clickSheet
  | choose (i : Int)
  | click (button : String)
  deriving DecidableEq, Repr

/-- A change of the source or the choice. -/
def changed (w : State) : Reaction :=
  match w.control with
  | .basic => calm w
  | .guarded => guardedChange w
  | .stepping => steppingChange w

def sheetChanged (w : State) : Reaction :=
  match w.control with
  | .stepping => steppingChange w
  | _ => calm w

/-- A click on a button of the form. -/
def clicked (w : State) : Button → Reaction
  | .firstPass =>
    match w.control with
    | .basic => basicFirst w
    | .guarded => guardedFirst w
    | .stepping => runOut w
  | .secondPass =>
    match w.control with
    | .basic => basicSecond w
    | .guarded => guardedSecond w
    | .stepping => calm w
  | .tracePass => stepOn w
  | .clearFirst => calm { w with firstErrors := [] }
  | .clearSecond => calm { w with secondErrors := [] }

def react (w : State) : Event → Reaction
  | .editSource text => changed { w with source := text }
  | .setRows n => calm { w with sheet := w.sheet.setRowCount n }
  | .editCell row column text => sheetChanged { w with sheet := w.sheet.setCell row column text }
  | .clickSheet => sheetChanged w
  | .choose i =>
    if formHasChoice w.dialect then changed { w with choice := i } else upset w .controlAbsent
  | .click name =>
    match Button.ofName? name with
    | none => upset w .controlAbsent
    | some b => if (formButtons w.dialect).contains b then clicked w b else upset w .controlAbsent

/-- The reactions to events one after another. -/
def reactions : State → List Event → List Reaction
  | _, [] => []
  | w, e :: es =>
    let r := react w e
    r :: reactions r.window es

/-- The window after events, whatever faults their handlers end in. -/
def State.after (w : State) (es : List Event) : State := es.foldl (fun w e => (react w e).window) w

@[simp] theorem State.after_nil (w : State) : w.after [] = w := rfl

theorem State.after_append (w : State) (es fs : List Event) :
    w.after (es ++ fs) = (w.after es).after fs := by
  simp [State.after]

theorem State.after_concat (w : State) (es : List Event) (e : Event) :
    w.after (es ++ [e]) = (react (w.after es) e).window := by
  simp [State.after]

end Assembler.Window
