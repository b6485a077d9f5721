import Assembler.Listing
import Assembler.Statement

/-! # One pass, line by line

A one-pass assembler goes through the lines once and can be watched: after each line that takes part
in the program, and once more at the end, it shows the records made so far, the symbols and what was
found wrong.  A trace is everything it shows; a fault cuts the trace short. -/

namespace Assembler.OnePass
open Assembler
set_option autoImplicit false

/-- What is shown after a line.  There are no records once something was found wrong. -/
structure Snapshot where
  records : Option (List ObjectRecord)
  symbols : Symbols
  found : List Diagnostic
  deriving DecidableEq, Repr

/-- All snapshots in order, and the fault that ended the run. -/
structure Trace where
  snapshots : List Snapshot
  fault : Option Fault
  deriving DecidableEq, Repr

namespace Trace

def nothing : Trace := ⟨[], none⟩

def failed (x : Fault) : Trace := ⟨[], some x⟩

/-- Puts a snapshot in front, unless showing it failed. -/
def cons (shown : Except Fault Snapshot) (t : Trace) : Trace :=
  match shown with
  | .error x => failed x
  | .ok s => { t with snapshots := s :: t.snapshots }

end Trace

/-- An assembler of one pass over states `σ`. -/
structure Pass (σ : Type) where
  /-- Takes in a line, whose number is given. -/
  step : σ → Nat → Line → Except Fault σ
  /-- Whether something is shown after a line. -/
  shows : Line → Bool
  /-- Whether the end directive has been met. -/
  ended : σ → Bool
  /-- Looks at the program as a whole. -/
  close : σ → σ
  /-- What is shown of a state. -/
  view : σ → Except Fault Snapshot

/-- The trace from a state on, the next line having the given number. -/
def Pass.trace {σ : Type} (p : Pass σ) : σ → Nat → List Line → Trace
  | s, _, [] => .cons (p.view (p.close s)) .nothing
  | s, n, l :: rest =>
    if p.ended s then .cons (p.view (p.close s)) .nothing
    else
      match p.step s n l with
      | .error x => .failed x
      | .ok s' =>
        if p.shows l then .cons (p.view s') (p.trace s' (n + 1) rest) else p.trace s' (n + 1) rest

/-- Nothing is shown after the directives that frame programs and sections. -/
def showsAfter (layout : Layout) (table : OpTable) (l : Line) : Bool :=
  match Statement.ofMnemonic layout table l.mnemonic with
  | .start | .newSection | .finish => false
  | _ => true

/-! ## References that wait for a name -/

/-- Where the references to names wait: the record that was the last one when the name was met, or
`none` if there was no record yet. -/
abbrev Waiting : Type := OrderedMap String (List (Option Nat))

/-- The place of the last of `n` records. -/
def lastPlace (n : Nat) : Option Nat := if n = 0 then none else some (n - 1)

def Waiting.add (w : Waiting) (name : String) (place : Option Nat) : Waiting :=
  w.insert name ((w.get? name).getD [] ++ [place])

/-- Changes the record at a place; without a place it is the last one. -/
def changeAt {α : Type} (f : α → Except Fault α) (place : Option Nat) (xs : List α) :
    Except Fault (List α) :=
  let i := place.getD (xs.length - 1)
  match xs[i]? with
  | none => .error .elementAbsent
  | some x => (f x).map (xs.set i)

/-- Changes the records at places one after another. -/
def changeAll {α : Type} (f : α → Except Fault α) :
    List (Option Nat) → List α → Except Fault (List α)
  | [], xs => .ok xs
  | place :: places, xs =>
    match changeAt f place xs with
    | .error x => .error x
    | .ok xs' => changeAll f places xs'

/-- Whether a label may not be given again: it has an address other than zero. -/
def isTaken (names : OrderedMap String (Option Int)) (name : String) : Bool :=
  match names.get? name with
  | some (some a) => a != 0
  | _ => false

/-- Whether a name has no address yet. -/
def isOpen (names : OrderedMap String (Option Int)) (name : String) : Bool :=
  match names.get? name with
  | some (some _) => false
  | _ => true

/-- The name that an operand waits for if it has no address; absolute programs do not wait for
relative names. -/
def awaitedName? (layout : Layout) (o : Operand) : Option String :=
  match layout, o with
  | .absolute, .relative _ => none
  | _, o => o.referredName?

/-- Lets names wait at a place, those without an address. -/
def awaitAll (place : Option Nat) (names : OrderedMap String (Option Int)) (waiting : Waiting) :
    List String → OrderedMap String (Option Int) × Waiting
  | [] => (names, waiting)
  | x :: xs =>
    if isOpen names x then awaitAll place (names.insert x none) (waiting.add x place) xs
    else awaitAll place names waiting xs

/-! ## What all passes keep -/

/-- How far a pass has got in the program or the section. -/
structure Frame where
  counter : Int
  /-- The address where the program or section begins. -/
  origin : Int
  /-- The addresses the counter has stood at since then. -/
  visited : List Int
  started : Bool
  ended : Bool
  found : List Diagnostic
  deriving DecidableEq, Repr

/-- The problems of a start directive that comes upon a load address. -/
def startProblems (layout : Layout) (load : Int) (l : Line) : List Problem :=
  rangeProblems load .load ++ layout.loadProblems load ++
    (if l.name?.isNone then [.unnamedStart] else [])

namespace Frame

/-- Nothing is read yet, and the program is to begin at an address. -/
def initial (a : Int) : Frame := ⟨a, a, [a], false, false, []⟩

def tell (f : Frame) (site : Site) (ps : List Problem) : Frame :=
  { f with found := f.found ++ site.report ps }

/-- Loads the program at the address a start directive gives, if it does. -/
def load (f : Frame) (l : Line) : Frame :=
  match onlyNumber? l.operands with
  | some a => { f with counter := a, visited := [a], origin := a }
  | none => f

/-- Takes in a start directive; where its problems are met depends on the counter. -/
def commence (f : Frame) (layout : Layout) (site : Int → Site) (l : Line) : Frame :=
  let ps := (if f.started then [.repeatedStart] else []) ++
    (if isOptionalNumber l.operands then [] else [.badStartOperand])
  let f := { (f.tell (site f.counter) ps).load l with started := true }
  f.tell (site f.counter) (startProblems layout f.counter l)

end Frame

/-- How far a pass has got in a program without sections. -/
structure FlatFrame extends Frame where
  names : OrderedMap String (Option Int)
  waiting : Waiting
  deriving DecidableEq, Repr

/-- Lets the names in a line wait at the last of `count` records. -/
def FlatFrame.await (f : FlatFrame) (layout : Layout) (count : Nat) (l : Line) : FlatFrame :=
  let tables :=
    awaitAll (lastPlace count) f.names f.waiting (l.operands.filterMap (awaitedName? layout))
  { f with names := tables.1, waiting := tables.2 }

/-- Takes in a line of a program without sections: a start directive, or else its label and then
what the line says. -/
def takeIn {σ : Type} (startLine : σ → σ) (noteLabel : σ → Except Fault σ)
    (bodyLine : Statement → σ → Except Fault σ) (stmt : Statement) (s : σ) : Except Fault σ :=
  match stmt with
  | .start => .ok (startLine s)
  | stmt =>
    match noteLabel s with
    | .error x => .error x
    | .ok s' => bodyLine stmt s'

end Assembler.OnePass
