import Assembler.Listing
import Assembler.OpTable
import Assembler.TwoPass.Sectioned
import Assembler.Window.Grid
import Assembler.Written

/-! # The tables of the window

How listings, symbols and modifications are laid out for the eye.  Names are sorted by address;
names without one come first.  Sorting keeps the order of names with equal keys. -/

namespace Assembler.Window
open Assembler
set_option autoImplicit false

def textRow (texts : List String) : List (Option String) := texts.map some

def addressCell (a : Int) : String := "0x" ++ Text.address a

/-- The operation code of a line, or its mnemonic if it is no operation. -/
def codeCell (table : OpTable) (l : Line) : String :=
  match table.get? l.mnemonic with
  | some op => Text.decimal op.opcode
  | none => l.mnemonic

def listingTitles : List String := ["Адрес", "Код операции", "Операнды"]

/-- A table that was filled row by row, and the fault that stopped the filling. -/
structure Filling where
  grid : Grid
  fault : Option Fault
  deriving DecidableEq, Repr

/-- The table, unless its filling was stopped. -/
def Filling.complete (f : Filling) : Except Fault Grid := f.fault.elim (.ok f.grid) .error

/-- Fills rows one after another; from a row that cannot be written on they stay empty. -/
def fillRows (width : Nat) (cells : Row → Except Fault (List (Option String))) :
    List Row → List (List (Option String)) × Option Fault
  | [] => ([], none)
  | r :: rest =>
    match cells r with
    | .error x => (List.replicate (rest.length + 1) (List.replicate width none), some x)
    | .ok row => (row :: (fillRows width cells rest).1, (fillRows width cells rest).2)

/-- A listing whose rows have the given cells. -/
def listingOf (cells : Row → Except Fault (List (Option String))) (rows : List Row) : Filling :=
  let filled := fillRows listingTitles.length cells rows
  ⟨.ofRows listingTitles filled.1, filled.2⟩

/-- A row of the listing of a flat program. -/
def flatListingRow (table : OpTable) (r : Row) : Except Fault (List (Option String)) :=
  (Operand.listWritten r.line.operands).map fun operands =>
    textRow [addressCell r.address, codeCell table r.line, operands]

def flatListing (table : OpTable) (rows : List Row) : Filling :=
  listingOf (flatListingRow table) rows

/-- A row of the listing of a sectioned program: the rows that close sections are empty, linkage has
no address. -/
def sectionedListingRow (table : OpTable) (r : Row) : Except Fault (List (Option String)) :=
  let m := r.line.mnemonic
  if m = TwoPass.Sectioned.sectionEnd then .ok [none, none, none]
  else
    let address := if m = "EXTREF" ∨ m = "EXTDEF" then "" else addressCell r.address
    (Operand.listWritten r.line.operands).map fun operands =>
      textRow [address, codeCell table r.line, operands]

/-- The listing of a sectioned program. -/
def sectionedListing (table : OpTable) (rows : List Row) : Filling :=
  listingOf (sectionedListingRow table) rows

/-- The listing of a program in the way of its layout. -/
def listingTable (layout : Layout) (table : OpTable) (rows : List Row) : Filling :=
  match layout with
  | .sectioned => sectionedListing table rows
  | _ => flatListing table rows

def sortedBy {α : Type} (key : α → Int) (xs : List α) : List α :=
  xs.mergeSort fun a b => decide (key a ≤ key b)

def nameTitles : List String := ["Метка", "Адрес"]

/-- Addresses that all have to be known. -/
def knownAddresses : List (String × Option Int) → Except Fault (List (String × Int))
  | [] => .ok []
  | (_, none) :: _ => .error .numberAbsent
  | (name, some a) :: rest => (knownAddresses rest).map ((name, a) :: ·)

/-- The names of a flat program in two passes, all with addresses. -/
def knownNames (names : OrderedMap String (Option Int)) : Except Fault Grid :=
  (knownAddresses names.entries).map fun es =>
    .ofRows nameTitles ((sortedBy (·.2) es).map fun e => textRow [e.1, addressCell e.2])

/-- The key of an address that may be unknown or zero; both come first. -/
def openKey (a : Option Int) : Int := if a.getD 0 = 0 then -1 else a.getD 0

/-- The names of a flat program in one pass. -/
def openNames (names : OrderedMap String (Option Int)) : Grid :=
  .ofRows nameTitles <| (sortedBy (fun e => openKey e.2) names.entries).map fun e =>
    textRow [e.1, (e.2.map addressCell).getD "None"]

/-- The titles of the names of sections. -/
def sectionTitles : List String := ["Метка", "Адрес", "Секция", "Тип"]

/-- The rows for the names of one section. -/
def sectionRows (label : Option String) (names : SectionNames (Option Int)) :
    List (List (Option String)) :=
  (sortedBy (fun e => e.2.address.getD (-1)) names.entries).map fun e =>
    textRow [e.1, (e.2.address.map fun a => "0x" ++ Text.hex .lower 6 a).getD "None", label.getD "",
      (e.2.linkage.map Linkage.name).getD ""]

/-- The names of a sectioned program, section by section. -/
def sectionNames (sections : Sections (Option Int)) : Grid :=
  .ofRows sectionTitles (sections.entries.flatMap fun sec => sectionRows sec.1 sec.2)

def modificationTable (ms : List Modification) : Grid :=
  .ofRows ["Адрес", "Имя", "Секция"]
    (ms.map fun m => textRow [Text.address m.address, m.name, m.section_.getD ""])

/-- The listing of a program, rows coming from outside. -/
def listingFromCells (layout : Layout) (table : OpTable) (rows : List (List RowCell)) :
    Except Fault Grid :=
  let width := if layout = .sectioned then 3 else 2
  match Row.listOfCells width rows with
  | .error x => .error x
  | .ok rows => (listingTable layout table rows).complete

/-- The names of a program in the way of its dialect. -/
def namesTable (d : Dialect) (symbols : Symbols) : Except Fault Grid :=
  match symbols, d.strategy with
  | .flat names, .twoPass => knownNames names
  | .flat names, .onePass => .ok (openNames names)
  | .sectioned sections, _ => .ok (sectionNames sections)

end Assembler.Window
