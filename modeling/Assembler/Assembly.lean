import Assembler.OnePass.Absolute
import Assembler.OnePass.Relocatable
import Assembler.OnePass.Sectioned
import Assembler.Source
import Assembler.TwoPass.FlatCode
import Assembler.TwoPass.Flat
import Assembler.TwoPass.SectionedCode

/-! # Assembling in a dialect

The passes of each dialect under one name.  The code of sectioned programs is also made for the
dialects of one pass, from a listing and a directory that come from outside. -/

namespace Assembler
set_option autoImplicit false

def listProgram (d : Dialect) (table : OpTable) (use : NameUse) (program : List Line) :
    Except Fault Listing :=
  match d.layout with
  | .sectioned => TwoPass.Sectioned.list table use program
  | _ => TwoPass.Flat.list d table use program

/-- Whether object code is made section by section. -/
def Dialect.bySection (d : Dialect) : Bool := d.layout == .sectioned || d.strategy == .onePass

def makeCode (d : Dialect) (dir : Directory) (table : OpTable) (rows : List Row) :
    Except Fault ObjectProgram :=
  if d.bySection then TwoPass.SectionedCode.make d dir table rows
    else TwoPass.FlatCode.make d dir table rows

/-- The second of two passes on rows from outside. -/
def makeCodeFromCells (d : Dialect) (dir : Directory) (table : OpTable)
    (rows : List (List RowCell)) :
    Except Fault ObjectProgram :=
  if d.bySection then TwoPass.SectionedCode.makeFromCells d dir table rows
  else TwoPass.FlatCode.makeFromCells d dir table rows

/-- The style of records made in two passes. -/
def Dialect.codeStyle (d : Dialect) : RecordStyle := if d.bySection then .linked else .flat

def traceProgram (layout : Layout) (table : OpTable) (use : NameUse) (program : List Line) :
    OnePass.Trace :=
  match layout with
  | .absolute => OnePass.Absolute.trace table use program
  | .relocatable => OnePass.Relocatable.trace table use program
  | .sectioned => OnePass.Sectioned.trace table use program

/-- The style of records made in one pass. -/
def Layout.traceStyle : Layout → RecordStyle
  | .absolute => .patched
  | _ => .drafted

/-- Both passes over the lines of a program: the listing, and the object program if there is a
listing. -/
def assembleTwice (d : Dialect) (table : OpTable) (use : NameUse) (program : List Line) :
    Except Fault (Listing × Option (Except Fault ObjectProgram)) :=
  (listProgram d table use program).map fun listing =>
    match listing with
    | .listed rows symbols => (listing, some (makeCode d (.ofSymbols symbols) table rows))
    | .refused _ => (listing, none)

end Assembler
