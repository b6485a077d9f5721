import Assembler.Assembly
import Assembler.Window.Tables
import Assembler.Workload.Programs

/-! # Runs of the programs

What the assemblers make of the programs, counted.  Where a program has a form with direct and one
with relative names, they take turns. -/

namespace Assembler.Workload
open Assembler
set_option autoImplicit false

/-- The numbers of so many programs. -/
def numbers (n : Int) : List Int := (List.range n.toNat).map Int.ofNat

/-- Every other program uses relative names. -/
def usesRelative (i : Int) : Bool := i % 2 == 1

/-! ## Two passes -/

/-- Both passes over a program. -/
structure TwoPassRun where
  listing : Listing
  code : ObjectProgram
  deriving DecidableEq, Repr

/-- Runs both passes; a program that is not listed has no code. -/
def runTwice (d : Dialect) (use : NameUse) (text : String) : Except Fault TwoPassRun :=
  match Source.parse d text with
  | .error x => .error x
  | .ok src =>
    match assembleTwice d operations use src.lines with
    | .error x => .error x
    | .ok (listing, none) => .ok ⟨listing, .made [] []⟩
    | .ok (_, some (.error x)) => .error x
    | .ok (listing, some (.ok code)) => .ok ⟨listing, code⟩

namespace TwoPassRun

def records (r : TwoPassRun) : List ObjectRecord :=
  match r.code with
  | .made records _ => records
  | .refused _ => []

def modifications (r : TwoPassRun) : List Modification :=
  match r.code with
  | .made _ ms => ms
  | .refused _ => []

def symbols (r : TwoPassRun) : Symbols :=
  match r.listing with
  | .listed _ symbols => symbols
  | .refused _ => .flat ∅

/-- What the first pass found wrong. -/
def firstFound (r : TwoPassRun) : List Diagnostic :=
  match r.listing with
  | .listed _ _ => []
  | .refused found => found

/-- What the second pass found wrong. -/
def secondFound (r : TwoPassRun) : List Diagnostic :=
  match r.code with
  | .made _ _ => []
  | .refused found => found

end TwoPassRun

/-- The absolute programs in two passes. -/
def absoluteRuns (n : Int) : Except Fault (List TwoPassRun) :=
  (numbers n).mapM fun i => runTwice ⟨.absolute, .twoPass⟩ .both (absoluteProgram i)

/-- The relocatable programs in two passes. -/
def relocatableRuns (n : Int) : Except Fault (List TwoPassRun) :=
  (numbers n).mapM fun i => runTwice ⟨.relocatable, .twoPass⟩ .both
    (relocatableProgram i (usesRelative i))

/-- The sectioned programs in two passes. -/
def sectionedRuns (n : Int) : Except Fault (List TwoPassRun) :=
  (numbers n).mapM fun i => runTwice ⟨.sectioned, .twoPass⟩ .both
    (sectionedProgram i (usesRelative i))

/-! ## One pass -/

/-- How many records, names or sections, and problems the end of a run shows. -/
structure OnePassTally where
  records : Nat
  names : Nat
  problems : Nat
  deriving DecidableEq, Repr

/-- The number of names, or of sections. -/
def symbolCount : Symbols → Nat
  | .flat names => names.size
  | .sectioned sections => sections.size

def OnePassTally.ofSnapshot (s : OnePass.Snapshot) : OnePassTally :=
  ⟨(s.records.getD []).length, symbolCount s.symbols, s.found.length⟩

def runOnce (layout : Layout) (use : NameUse) (text : String) : Except Fault OnePassTally :=
  match Source.parse ⟨layout, .onePass⟩ text with
  | .error x => .error x
  | .ok src =>
    let trace := traceProgram layout operations use src.lines
    match trace.fault, trace.snapshots.getLast? with
    | some x, _ => .error x
    | none, some s => .ok (.ofSnapshot s)
    | none, none => .ok ⟨0, 0, 0⟩

/-- The absolute programs in one pass. -/
def absoluteTallies (n : Int) : Except Fault (List OnePassTally) :=
  (numbers n).mapM fun i => runOnce .absolute .directOnly (absoluteProgram i)

/-- The relocatable programs in one pass. -/
def relocatableTallies (n : Int) : Except Fault (List OnePassTally) :=
  (numbers n).mapM fun i => runOnce .relocatable .both (relocatableProgram i (usesRelative i))

/-- The sectioned programs in one pass. -/
def sectionedTallies (n : Int) : Except Fault (List OnePassTally) :=
  (numbers n).mapM fun i => runOnce .sectioned .both (sectionedProgram i (usesRelative i))

/-! ## Problems -/

/-- The number of problems of the faulty program of a dialect. -/
def problemCount (d : Dialect) (use : NameUse) : Except Fault Nat :=
  let text := if d.layout = .sectioned then faultySectionedProgram else faultyProgram
  match d.strategy with
  | .twoPass => (runTwice d use text).map (·.firstFound.length)
  | .onePass => (runOnce d.layout use text).map (·.problems)

/-- The dialects and name uses in which the faulty programs are run. -/
def faultyCases : List (Dialect × NameUse) :=
  [(⟨.absolute, .twoPass⟩, .directOnly), (⟨.relocatable, .twoPass⟩, .relativeOnly),
    (⟨.relocatable, .twoPass⟩, .directOnly), (⟨.sectioned, .twoPass⟩, .directOnly),
    (⟨.sectioned, .twoPass⟩, .relativeOnly), (⟨.absolute, .onePass⟩, .directOnly),
    (⟨.relocatable, .onePass⟩, .directOnly), (⟨.relocatable, .onePass⟩, .relativeOnly),
    (⟨.sectioned, .onePass⟩, .directOnly), (⟨.sectioned, .onePass⟩, .relativeOnly)]

/-- The numbers of problems, so many times over. -/
def problemCounts (n : Int) : Except Fault (List Nat) :=
  ((List.replicate n.toNat faultyCases).flatten).mapM fun c => problemCount c.1 c.2

/-! ## Sections -/

/-- How many records, problems and modifications a second pass gives. -/
structure CodeTally where
  records : Nat
  problems : Nat
  modifications : Nat
  deriving DecidableEq, Repr

def CodeTally.ofProgram : ObjectProgram → CodeTally
  | .made records ms => ⟨records.length, 0, ms.length⟩
  | .refused found => ⟨0, found.length, 0⟩

/-- The code of the linked program, listed in two passes, in the way of a dialect. -/
def linkedTally (d : Dialect) : Except Fault CodeTally :=
  match Source.parse ⟨.sectioned, .twoPass⟩ linkedProgram with
  | .error x => .error x
  | .ok src =>
    match listProgram ⟨.sectioned, .twoPass⟩ operations .both src.lines with
    | .error x => .error x
    | .ok (.refused found) => .ok ⟨0, found.length, 0⟩
    | .ok (.listed rows symbols) => (makeCode d (.ofSymbols symbols) operations rows).map .ofProgram

/-- The sectioned programs, then the linked program in each dialect of one pass. -/
def sectionTallies (n : Int) : Except Fault (List CodeTally) := do
  let runs ← sectionedRuns n
  let linked ← [Layout.absolute, .relocatable, .sectioned].mapM fun layout =>
      linkedTally ⟨layout, .onePass⟩
  pure (runs.map (fun r => .ofProgram r.code) ++ linked.flatMap fun t => List.replicate n.toNat t)

/-! ## Tables -/

/-- The numbers of rows and of filled cells. -/
def gridTally (g : Window.Grid) : Nat × Nat :=
  (g.rows.length, (g.rows.map fun r => r.countP Option.isSome).foldr (· + ·) 0)

/-- The tables of a window with so many rows, and an emptied one. -/
def tableTallies (n : Int) : List (Nat × Nat) :=
  let is := numbers n
  let name (i : Int) := "L" ++ Text.decimal i
  let rows :=
    is.map fun i => (⟨i * 2, ⟨some (name i), ⟨"ADD", [.register 1, .register 2]⟩⟩, some "P"⟩ : Row)
  let names : SectionNames (Option Int) :=
    OrderedMap.ofList (is.map fun i => (name i, ⟨some i, none⟩))
  let listing := (Window.sectionedListing operations rows).grid
  [listing, Window.sectionNames (OrderedMap.ofList [(some "P", names)]),
    Window.modificationTable (is.map fun i => ⟨i, name i, some "P"⟩), listing.reset].map gridTally

end Assembler.Workload
