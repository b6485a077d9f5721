import Assembler.ObjectRecord
import Assembler.Problem
import Assembler.Symbols

/-! # Listings and object programs

The first of two passes gives a listing: each line with its address and, in sectioned programs, its
section.  The second pass turns the listing into an object program.  Either refuses a program by
listing what is wrong with it. -/

namespace Assembler
set_option autoImplicit false

/-- A line at its address; only sectioned programs use the section. -/
structure Row where
  address : Int
  line : Line
  section_ : Option String
  deriving DecidableEq, Repr

/-- What the first pass gives. -/
inductive Listing where
  | listed (rows : List Row) (symbols : Symbols)
  | refused (found : List Diagnostic)
  deriving DecidableEq, Repr

/-- An address that is modified when a section is placed, the name in its operand, and the
section. -/
structure Modification where
  address : Int
  name : String
  section_ : Option String
  deriving DecidableEq, Repr

/-- What the second pass gives. -/
inductive ObjectProgram where
  | made (records : List ObjectRecord) (modifications : List Modification)
  | refused (found : List Diagnostic)
  deriving DecidableEq, Repr

/-- The object program, unless something was found wrong. -/
def ObjectProgram.unlessFound (found : List Diagnostic) (records : List ObjectRecord)
    (modifications : List Modification) : ObjectProgram :=
  if found.isEmpty then .made records modifications else .refused found

/-- Each row with the distance to the next one; after the last row the address is zero. -/
def sizedRows : List Row → List (Row × Int)
  | [] => []
  | [r] => [(r, 0 - r.address)]
  | r :: next :: rest => (r, next.address - r.address) :: sizedRows (next :: rest)

/-! ## Rows from outside -/

/-- A cell of a row that comes from outside. -/
inductive RowCell where
  | address (a : Int)
  | line (l : Line)
  | inSection (label : Option String)
  deriving DecidableEq, Repr

/-- A row of so many cells as are wanted. -/
def Row.ofCells (wanted : Nat) (cells : List RowCell) : Except Fault Row :=
  if wanted < cells.length then .error (.rowTooLong wanted)
  else if cells.length < wanted then .error (.rowTooShort wanted cells.length)
  else
    match cells with
    | [.address a, .line l] => .ok ⟨a, l, none⟩
    | [.address a, .line l, .inSection s] => .ok ⟨a, l, s⟩
    | _ => .error .numberAbsent

/-- Rows of so many cells each as are wanted. -/
def Row.listOfCells (wanted : Nat) : List (List RowCell) → Except Fault (List Row)
  | [] => .ok []
  | cells :: rest =>
    match Row.ofCells wanted cells with
    | .error x => .error x
    | .ok r => (listOfCells wanted rest).map (r :: ·)

end Assembler
