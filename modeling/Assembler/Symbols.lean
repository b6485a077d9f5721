import Assembler.Fault
import Assembler.OrderedMap

/-! # Symbols

What names stand for.  The passes keep an address for each name, possibly not known yet; in
sectioned programs each section has its own names, and a name may be exported or imported.
`Symbols` is what a pass answers.  `Directory` is what object code is made from: it may come from a
pass or from outside, so its values are less regular. -/

namespace Assembler
set_option autoImplicit false

/-- Whether a name is exported to or imported from other sections. -/
inductive Linkage where
  | exported
  | imported
  deriving DecidableEq, Repr

/-- The directive that gives a linkage, which also names it. -/
def Linkage.name : Linkage → String
  | .exported => "EXTDEF"
  | .imported => "EXTREF"

/-- A name of a section: its address and its linkage. -/
structure Entry (α : Type) where
  address : α
  linkage : Option Linkage
  deriving DecidableEq, Repr

abbrev SectionNames (α : Type) : Type := OrderedMap String (Entry α)

/-- The sections of a program; a section without a label has the key `none`. -/
abbrev Sections (α : Type) : Type := OrderedMap (Option String) (SectionNames α)

/-- The symbols that a pass answers. -/
inductive Symbols where
  | flat (names : OrderedMap String (Option Int))
  | sectioned (sections : Sections (Option Int))
  deriving DecidableEq, Repr

/-- Whether there is nothing to show. -/
def Symbols.isEmpty : Symbols → Bool
  | .flat names => names.isEmpty
  | .sectioned sections => sections.isEmpty

/-! ## Directories -/

/-- What a name stands for in a directory. -/
inductive Value where
  | number (n : Int)
  | absent
  | text (s : String)
  deriving DecidableEq, Repr

namespace Value

/-- An address that may not be known yet. -/
def ofAddress? : Option Int → Value
  | some a => .number a
  | none => .absent

def plain : Value → String
  | .number n => Text.decimal n
  | .absent => "None"
  | .text s => s

/-- Whether a value has a plain text. -/
def hasPlain : Value → Bool
  | .number n => Text.hasDecimal n
  | _ => true

/-- A value inside the text of a table. -/
def inner : Value → String
  | .text s => Text.quoted s
  | v => v.plain

end Value

/-- A directory of names and of sections with their names. -/
inductive Directory where
  /-- No directory was handed over. -/
  | absent
  | listed (names : OrderedMap String Value) (sections : Sections Value)
  deriving DecidableEq, Repr

def Entry.describe (e : Entry Value) : String :=
  let linkage := (e.linkage.map fun l => Text.quoted l.name).getD "None"
  "\x7b'addr': " ++ e.address.inner ++ ", 'type': " ++ linkage ++ "\x7d"

def describeNames (names : SectionNames Value) : String :=
  "\x7b" ++ String.intercalate ", "
    (names.entries.map fun e => Text.quoted e.1 ++ ": " ++ e.2.describe) ++ "\x7d"

namespace Directory

def empty : Directory := .listed ∅ ∅

/-- The directory of names with addresses. -/
def ofNames (names : OrderedMap String (Option Int)) : Directory :=
  .listed (names.mapValues Value.ofAddress?) ∅

def ofSections (sections : Sections (Option Int)) : Directory :=
  .listed ∅ (sections.mapValues fun names => names.mapValues fun e =>
    ⟨Value.ofAddress? e.address, e.linkage⟩)

def ofSymbols : Symbols → Directory
  | .flat names => ofNames names
  | .sectioned sections => ofSections sections

/-- What a name stands for; a section named where an address is wanted gives its text. -/
def value? (dir : Directory) (name : String) : Option Value :=
  match dir with
  | .absent => none
  | .listed names sections =>
    names.get? name <|> (sections.get? (some name)).map fun ns => .text (describeNames ns)

/-- The entry of a name in a section. -/
def entry (dir : Directory) (section_ : Option String) (name : String) :
    Except Fault (Entry Value) :=
  match dir with
  | .absent => .error .numberAbsent
  | .listed names sections =>
    match sections.get? section_ with
    | some ns =>
      match ns.get? name with
      | some e => .ok e
      | none => .error (.missingKey (some name))
    | none =>
      if section_.any names.contains then .error .numberAbsent else .error (.missingKey section_)

end Directory

end Assembler
