/-! # Grids

A grid is a table of cells that may be empty, under a header.  Every row has as many cells as the
grid has columns. -/

namespace Assembler.Window
set_option autoImplicit false

/-- A table of cells. -/
structure Grid where
  columns : Nat
  header : List String
  rows : List (List (Option String))
  deriving DecidableEq, Repr

namespace Grid

/-- The grid without rows and columns. -/
def empty : Grid := ⟨0, [], []⟩

/-- A grid of rows under a header, with a column for each title. -/
def ofRows (header : List String) (rows : List (List (Option String))) : Grid :=
  ⟨header.length, header, rows⟩

/-- Empties all cells and drops the header; the counts stay. -/
def clear (g : Grid) : Grid := ⟨g.columns, [], g.rows.map fun r => r.map fun _ => none⟩

/-- Cuts rows off or adds empty ones. -/
def setRowCount (g : Grid) (n : Nat) : Grid :=
  { g with
    rows := g.rows.take n ++ List.replicate (n - g.rows.length) (List.replicate g.columns none) }

/-- Drops everything but the number of columns. -/
def reset (g : Grid) : Grid := g.clear.setRowCount 0

/-- Puts a text into a cell; outside the grid nothing happens. -/
def setCell (g : Grid) (row column : Int) (text : String) : Grid :=
  if row < 0 ∨ column < 0 then g
  else { g with rows := g.rows.modify row.toNat fun r => r.set column.toNat (some text) }

def cell (row : List (Option String)) (column : Nat) : Option String := (row[column]?).join

end Grid

end Assembler.Window
