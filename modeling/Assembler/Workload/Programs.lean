import Assembler.OpTable

/-! # Programs to run the assemblers on

One program for each layout that uses every directive and every kind of operand, numbered so that
many can be told apart, and two that go wrong in as many ways as possible. -/

namespace Assembler.Workload
open Assembler
set_option autoImplicit false

def operations : OpTable :=
  .ofTriples [("LOAD", 1, 2), ("LOADI", 2, 4), ("STORE", 3, 4), ("ADD", 4, 2), ("SUB", 5, 2),
    ("JMP", 6, 4), ("JZ", 7, 4), ("HALT", 8, 1), ("NOP", 9, 1), ("JMPR", 10, 3)]

def textOf (lines : List String) : String := String.intercalate "\n" lines

def absoluteProgram (i : Int) : String :=
  textOf
    ["Prog" ++ Text.decimal i ++ ": START 0x100", "; opening comment", "Loop: LOAD R1, R2",
      "      ADD R3, R4", "      SUB 0o17", "      LOADI 0x1234", "      STORE Data",
      "      JMP Loop", "      JZ x'ABCDEF'", "      LOADI c'A'", "      NOP", "      HALT",
      "Data: WORD 0x1", "W2:   WORD c'Hi'", "W3:   WORD x'FE'", "B1:   BYTE 42",
      "B2:   BYTE c'Hello world'  ; trailing comment", "B3:   BYTE x'FEE'", "R1r:  RESW 2",
      "R2r:  RESB 4", "      END 0x100", "      NOP"]

/-- A correct relocatable program with direct or with relative names. -/
def relocatableProgram (i : Int) (relative : Bool) : String :=
  let jumps :=
    if relative then ["      JMPR @Loop", "      JMPR @Data"]
      else ["      STORE Data", "      JMP Loop"]
  textOf
    (["Prog" ++ Text.decimal i ++ ": START", "Loop: LOAD R1, R10", "      ADD R5, R6",
        "      SUB 0b1010", "      LOADI 200"] ++ jumps ++
      ["      NOP", "      HALT", "Data: WORD 0x2", "Wc:   WORD c'Go'", "Wx:   WORD x'ABCDEF'",
        "B1:   BYTE 7", "B2:   BYTE c'abc'", "B3:   BYTE x'F'", "Rw:   RESW 1", "Rb:   RESB 3",
        "      END"])

/-- A program of two sections that export and import names.  It is correct with direct names.  With
relative ones the second section jumps to a name of its own, but the first asks for the distance to
an imported name, which nobody knows. -/
def sectionedProgram (i : Int) (relative : Bool) : String :=
  let toImport := if relative then "      JMPR @D2" else "      JMP D2"
  let second := if relative then "D42: JMPR @D42" else "D42: STORE D4"
  textOf
    ["Prog" ++ Text.decimal i ++ ": START", "EXTDEF D23", "EXTDEF D4", "EXTREF D2", "EXTREF D546",
      "D4: RESB 10", "D23: RESW 2", "      LOAD R1, R2", "      ADD 3", toImport,
      "      STORE D546", "      NOP", "W1:   WORD 5", "Wc:   WORD c'XY'", "Wx:   WORD x'CAFE'",
      "B1:   BYTE 9", "Bc:   BYTE c'ok'", "Bx:   BYTE x'AB'", "A2: CSECT", "EXTDEF D42",
      "EXTREF D4", second, "     LOADI 200", "     HALT", "     END"]

/-- A short sectioned program with a name of its own and an imported one, and an empty second
section. -/
def linkedProgram : String :=
  textOf
    ["P: START", "EXTDEF A", "EXTREF B", "A: JMP A", "JMP B", "JMPR @A", "ADD R1, R2", "BYTE 1",
      "WORD 1", "RESW 1", "RESB 1", "Q: CSECT", "END"]

/-- A flat program that goes wrong on nearly every line. -/
def faultyProgram : String :=
  textOf
    ["NOP", "Prog: START 0x100", "Again: START 5", "START Bad", "Dup: NOP", "Dup: NOP", "UNKNOWN 1",
      "WORD Bad", "WORD -1", "RESW Bad", "RESW -1", "BYTE Bad", "BYTE 999", "RESB Bad", "RESB -1",
      "HALT 1", "ADD Bad", "ADD 999", "ADD c'toolong'", "JMP R1", "JMP -1", "END Bad", "NOP"]

/-- A sectioned program that goes wrong on nearly every line. -/
def faultySectionedProgram : String :=
  textOf
    ["NOP", "Prog: START 0x5", "START", "lbl: EXTDEF X", "EXTDEF X", "EXTDEF X", "EXTREF X",
      "lbl: EXTREF Y", "EXTREF Y", "CSECT", "Prog: CSECT", "Dup: NOP", "Dup: NOP", "UNKNOWN 1",
      "WORD Bad", "WORD -1", "RESW Bad", "RESW -1", "RESW 0xFFFFFF", "BYTE Bad", "BYTE 999",
      "RESB Bad", "RESB -1", "RESB 0xFFFFFF", "HALT 1", "ADD Bad", "ADD 999", "ADD c'toolong'",
      "JMPR Z", "JMP R1", "JMP -1", "JMP 0xFFFFFFFF", "END Bad", "NOP"]

end Assembler.Workload
