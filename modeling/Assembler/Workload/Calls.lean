import Assembler.Field
import Assembler.Line
import Assembler.OpTable

/-! # Calls on operands and fields

Small calls for each dialect, one after another and then from the start again.  `operandCalls`
describes operands and lines and takes values of operands; `fieldCalls` writes operand fields and
data. -/

namespace Assembler.Workload
open Assembler
set_option autoImplicit false

/-- What a call gives. -/
inductive Finding where
  | nothing
  | text (s : String)
  | number (n : Int)
  | truth (b : Bool)
  | operand (op : Operand)
  /-- The call ended in a fault. -/
  | faulted
  deriving DecidableEq, Repr

namespace Finding

def ofText? (s : Option String) : Finding := s.elim .nothing .text

def ofValue : Value → Finding
  | .number n => .number n
  | .absent => .nothing
  | .text s => .text s

/-- A result, or the fault instead of it. -/
def ofResult {α : Type} (f : α → Finding) : Except Fault α → Finding
  | .ok a => f a
  | .error _ => .faulted

/-- A field; a fault leaves nothing. -/
def ofField : Except Fault (Option String) → Finding
  | .ok field => ofText? field
  | .error _ => .nothing

end Finding

/-- All dialects, the ones of two passes first. -/
def dialects : List Dialect :=
  [⟨.absolute, .twoPass⟩, ⟨.relocatable, .twoPass⟩, ⟨.sectioned, .twoPass⟩, ⟨.absolute, .onePass⟩,
    ⟨.relocatable, .onePass⟩, ⟨.sectioned, .onePass⟩]

/-- The first `n` elements of a list that is repeated without end. -/
def cycled {α : Type} (n : Int) (xs : List α) : List α :=
  ((List.replicate (n.toNat / xs.length + 1) xs).flatten).take n.toNat

/-! ## Operands -/

def someNames : OrderedMap String Value := OrderedMap.ofList [("Sym", .number 20)]

/-- A section with a name of its own, an imported one, and an exported one that is not defined
yet. -/
def someSections : Sections Value :=
  OrderedMap.ofList
    [(some "P", OrderedMap.ofList
      [("Sym", ⟨.number 20, none⟩), ("Ext", ⟨.absent, some .imported⟩),
        ("Def", ⟨.absent, some .exported⟩)])]

/-- The value of an operand before the command at `next`. -/
def valueAt (d : Dialect) (next : Int) (op : Operand) : Finding :=
  .ofResult .ofValue (op.value (.ofDialect d (.listed someNames someSections) (some "P") next))

/-- Text and size of an operand; an absent one has neither. -/
def described : Option Operand → List Finding
  | none => [.nothing, .nothing]
  | some op => [.text op.text, .number op.size]

/-- One operand of each kind but relative names. -/
def plainOperands : List Operand :=
  [.direct "Sym", .number 42, .register 7, .chars "Hi!", .hex "FEE"]

/-- Text, size and displacements of a relative name. -/
def relativeCalls (d : Dialect) : List Finding :=
  let name := Operand.relative "Sym"
  let forward := [valueAt d 5 name]
  let backward := [valueAt d 50 name]
  if !d.hasRelative then []
  else if d.strategy = .onePass ∧ d.layout ≠ .sectioned then described (some name) ++ forward ++
    backward
  else forward ++ described (some name) ++ backward

/-- Names without an address in a section. -/
def linkageCalls (d : Dialect) : List Finding :=
  match d.layout, d.strategy with
  | .sectioned, .twoPass => [.direct "Ext", .direct "Def"].map (valueAt d 5)
  | .sectioned, .onePass => [.direct "Ext", .direct "Def", .relative "Def"].map (valueAt d 5)
  | _, _ => []

/-- Names that have no value: unknown ones, and imported ones where relative names are looked up in
the section. -/
def unknownNames (d : Dialect) : List Operand :=
  [.direct "Nope"] ++ (if d.hasRelative then [.relative "Nope"] else []) ++
    if d.layout = .sectioned ∨ d = ⟨.absolute, .onePass⟩ then [.relative "Ext"] else []

def longOperands : List Operand :=
  List.replicate 8 (.chars "abcdefgh") ++ (List.range 20).map fun i => .register (i % 16 : Nat)

/-- The calls on a line with many operands, and on a long constant. -/
def longCalls (d : Dialect) : List Finding :=
  [.truth (Operand.fit longOperands (longOperands.map fun op => some op.kind)),
    .text (Line.text ⟨some "LongLabel", ⟨"BIG", longOperands⟩⟩),
    valueAt d 0 (.chars "abcdefghijklmnopqrstuvwx")]

/-- The calls on operands of a dialect. -/
def operandCallsOf (d : Dialect) : List Finding :=
  let ops : List Operand := [.register 7, .number 42]
  let others : List Operand := if d.hasRelative then [.direct "Nope"] else []
  let named (op : Option Operand) (kind : OperandKind) :=
    Finding.ofResult .operand (Operand.demand op (some kind) "op")
  described none ++ (plainOperands ++ others).flatMap (fun op => described (some op)) ++
    [.text (Command.text ⟨"ADD", ops⟩), .text (Line.text ⟨some "Lbl", ⟨"ADD", ops⟩⟩),
      .text (Line.text ⟨none, ⟨"ADD", ops⟩⟩),
      .truth (Operand.fit ops [some .register, some .number]), named (some (.number 42)) .number] ++
    plainOperands.map (valueAt d 0) ++ relativeCalls d ++ linkageCalls d ++ (unknownNames d).map
      (valueAt d 5) ++
    [named none .number, named (some (.register 1)) .number] ++
      (List.replicate 4 (longCalls d)).flatten

def operandCalls (n : Int) : List Finding := cycled n (dialects.flatMap operandCallsOf)

/-! ## Fields -/

/-- The directory for fields: a dialect that makes code by sections gets sections only. -/
def fieldDirectory (d : Dialect) : Directory :=
  if d.layout = .sectioned ∨ d.strategy = .onePass then .listed ∅ someSections
    else .listed someNames ∅

/-- A number, a character string and a hexadecimal string. -/
def dataOperands : List (List Operand) := [[.number 5], [.chars "Hi"], [.hex "ABC"]]

def fieldOperands (d : Dialect) : List (List Operand) :=
  dataOperands ++ [[.register 3, .register 3], [.direct "Sym"]] ++ if d.hasRelative
    then [[.relative "Sym"]] else []

/-- The fields of all operands in all sizes. -/
def fieldsOf (d : Dialect) (field : Scope → Int → List Operand → Except Fault (Option String)) :
    List Finding :=
  let scope := Scope.ofDialect d (fieldDirectory d) (some "P") 4
  (fieldOperands d).flatMap fun ops => d.sizes.map fun size => .ofField (field scope size ops)

def addressings (d : Dialect) : List Finding :=
  let operands : List (List Operand) :=
    if d.hasRelative then [[.relative "Sym"], [.direct "Sym"], [.number 1]] else [[.direct "Sym"]]
  operands.map fun ops => .number (Addressing.ofOperands ops).code

/-- The digits of data, byte by byte and word by word. -/
def dataCalls : List Finding :=
  dataOperands.map (fun ops => .ofText? (byteDigits? ops)) ++ dataOperands.map fun ops =>
    .ofText? (wordDigits? ops)

/-- The calls on fields of a dialect. -/
def fieldCallsOf (d : Dialect) : List Finding :=
  let pairs :=
    (dataOperands ++ [[Operand.direct "Sym"], []]).flatMap fun ops =>
      [Finding.ofText? (byteDigits? ops), Finding.ofText? (wordDigits? ops)]
  let listed := pairs ++ fieldsOf d (Field.ofOperands d) ++ addressings d
  if d.strategy = .onePass then
    listed ++ dataCalls ++ fieldsOf d (Field.inOnePass d) ++ addressings d ++ dataCalls
  else if d.layout = .sectioned then listed ++ dataCalls
  else listed

def fieldCalls (n : Int) : List Finding := cycled n (dialects.flatMap fieldCallsOf)

end Assembler.Workload
