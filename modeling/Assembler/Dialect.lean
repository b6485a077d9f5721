/-! # Dialects

A dialect is a memory layout together with a way of assembling.  Absolute programs are placed at
their load address, relocatable ones start at zero and list the addresses to be modified, sectioned
ones consist of control sections that export names to and import names from each other.  Each layout
is assembled in two passes over the lines or in one. -/

namespace Assembler
set_option autoImplicit false

/-- How a program lies in memory. -/
inductive Layout where
  | absolute
  | relocatable
  | sectioned
  deriving DecidableEq, Repr

/-- How often the lines are read. -/
inductive Strategy where
  | twoPass
  | onePass
  deriving DecidableEq, Repr

/-- A layout and a strategy. -/
structure Dialect where
  layout : Layout
  strategy : Strategy
  deriving DecidableEq, Repr

namespace Dialect

/-- The plain absolute assembler in two passes. -/
def absoluteTwoPass : Dialect := ⟨.absolute, .twoPass⟩

/-- Whether the dialect knows relative names and binary numbers. -/
def hasRelative (d : Dialect) : Bool := d ≠ absoluteTwoPass

end Dialect

/-- Which kinds of name the operands of commands may use. -/
inductive NameUse where
  | directOnly
  | relativeOnly
  | both
  deriving DecidableEq, Repr

/-- The choice by its place in the list of choices. -/
def NameUse.ofIndex (i : Int) : NameUse :=
  if i = 0 then .directOnly else if i = 1 then .relativeOnly else .both

end Assembler
