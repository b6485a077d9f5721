import Assembler.OnePass.Draft

/-! # Sectioned programs in one pass

Each section has its own counter and names, and is closed by the next one or by the end of the
program: its modifications are written, names that still wait are reported, its length and entry
address are put down.  Problems are told with the section and the counter at the moment they are
met. -/

namespace Assembler.OnePass.Sectioned
open Assembler
set_option autoImplicit false

def dialect : Dialect := ⟨.sectioned, .onePass⟩

/-- How far the pass has got. -/
structure State extends Frame where
  /-- The section of the lines to come; before the start it has the empty label. -/
  current : Option String
  /-- The labels of the sections begun. -/
  begun : List (Option String)
  sections : Sections (Option Int)
  waiting : Waiting
  /-- The addresses and operands of the section's commands with direct names. -/
  modified : List (Int × String)
  /-- The place of the section's header among the drafts. -/
  headerPlace : Nat
  drafts : List Draft
  deriving DecidableEq, Repr

namespace State

def start : State := ⟨.initial 0, some "", [], ∅, ∅, [], 0, []⟩

/-- Reports problems where the counter stands. -/
def report (s : State) (ps : List Problem) : State :=
  { s with found := s.found ++ (Site.inSection s.current s.counter).report ps }

def add (s : State) (r : Draft) : State := { s with drafts := s.drafts ++ [r] }

def moveTo (s : State) (counter : Int) : State :=
  { s with counter, visited := s.visited ++ [counter] }

/-- The names of the current section; before any section there are none. -/
def names (s : State) : Except Fault (SectionNames (Option Int)) :=
  match s.sections.get? s.current with
  | some ns => .ok ns
  | none => .error (.missingKey s.current)

/-- Replaces the names of the current section. -/
def setNames (s : State) (ns : SectionNames (Option Int)) : State :=
  { s with sections := s.sections.insert s.current ns }

/-- Begins a section at the counter: its header is the next record, and it has no names. -/
def begin (s : State) (label : Option String) : State :=
  let s := { s with current := label, begun := s.begun ++ [label], headerPlace := s.drafts.length }
  (s.add (.header label s.counter none)).setNames ∅

def startLine (s : State) (l : Line) : State :=
  let frame := s.commence .sectioned (.inSection s.current) l
  State.begin ⟨frame, s.current, s.begun, s.sections, s.waiting, s.modified, s.headerPlace,
    s.drafts⟩ l.label

/-- Complains once for every line before the start directive. -/
def expectStarted (s : State) : State := if s.started then s else s.report [.beforeStart]

/-! ## Closing a section -/

/-- The drafts of modifications; an imported name is written with its address. -/
def modificationDrafts (s : State) : List (Int × String) → Except Fault (List Draft)
  | [] => .ok []
  | (a, name) :: rest =>
    match s.names with
    | .error x => .error x
    | .ok ns =>
      match ns.get? name with
      | none => .error (.missingKey (some name))
      | some e =>
        (modificationDrafts s rest).map
          (.modification a (if e.linkage = some .imported then some name else none) :: ·)

/-- Writes the modifications of the section. -/
def writeModifications (s : State) : Except Fault State :=
  (s.modificationDrafts s.modified).map fun ds =>
    { s with drafts := s.drafts ++ ds, modified := [] }

/-- Reports the names that still wait. -/
def reportWaiting (s : State) : State :=
  { s with found := s.found ++ Site.program.report (s.waiting.keys.map .undefinedReference) }

/-- Puts down the length of the section. -/
def writeLength (s : State) : Except Fault State :=
  (changeAt (fun r => .ok (r.setLength (s.counter - s.origin))) (some s.headerPlace) s.drafts).map
    fun ds =>
    { s with drafts := ds }

/-- The entry address that the directive closing a section leaves. -/
def entryPoint (s : State) (l : Line) : Int := (onlyNumber? l.operands).getD s.origin

/-- Reports an entry address that is no address of the section. -/
def checkEntry (s : State) (l : Line) : State :=
  s.report (if s.visited.contains (s.entryPoint l) then [] else [.badEntryPoint])

/-- Begins the section of a section directive. -/
def nextSection (s : State) (l : Line) : State :=
  let entry := s.entryPoint l
  let s := { s.add (.finish entry) with current := l.label }
  let s := s.report (if s.begun.contains l.label then [.repeatedSection l.label] else [])
  { s with counter := 0, origin := 0, visited := [0] }.begin l.label

def sectionLine (s : State) (l : Line) : Except Fault State :=
  let s := s.report <|
    (if isOptionalNumber l.operands then [] else [.badSection]) ++
      (if l.name?.isNone then [.unnamedSection] else [])
  match s.writeModifications with
  | .error x => .error x
  | .ok s => s.reportWaiting.writeLength.map fun s => (s.checkEntry l).nextSection l

def endLine (s : State) (l : Line) : Except Fault State :=
  let s := { s.report (if isOptionalNumber l.operands then [] else [.badEndOperand]) with
    ended := true }
  match s.writeLength with
  | .error x => .error x
  | .ok s =>
    (s.checkEntry l).writeModifications.map fun s => s.reportWaiting.add (.finish (s.entryPoint l))

/-! ## Labels -/

/-- What the names of a section stand for before the command at `next`. -/
def scope (s : State) (section_ : Option String) (next : Int) : Scope :=
  .ofDialect dialect (.ofSections s.sections) section_ next

/-- Whether a name left undefined may stay in a record. -/
def isUndefined : Fault → Bool
  | .undefinedName _ _ _ => true
  | _ => false

/-- Replaces what can be replaced in a record. -/
def fill (s : State) (r : Draft) : Except Fault Draft := r.fill isUndefined (s.scope s.current)

/-- Fills the record at a place, or reports why it cannot be filled. -/
def fillAt (s : State) (place : Option Nat) : Except Fault State :=
  let i := place.getD (s.drafts.length - 1)
  match s.drafts[i]? with
  | none => .error .elementAbsent
  | some r =>
    match s.fill r with
    | .ok r' => .ok { s with drafts := s.drafts.set i r' }
    | .error x => .ok (s.report [.fault x])

/-- Fills the records at places one after another. -/
def fillPlaces : State → List (Option Nat) → Except Fault State
  | s, [] => .ok s
  | s, place :: places =>
    match s.fillAt place with
    | .error x => .error x
    | .ok s' => fillPlaces s' places

/-- Fills the records that wait for a name. -/
def fillWaiting (s : State) (name : String) : Except Fault State :=
  match s.waiting.get? name with
  | none => .ok s
  | some places => (s.fillPlaces places).map fun s => { s with waiting := s.waiting.erase name }

/-- Gives a name of the section an address; its linkage stays. -/
def setAddress (s : State) (ns : SectionNames (Option Int)) (name : String) : State :=
  s.setNames (ns.insert name ⟨some s.counter, (ns.get? name).bind (·.linkage)⟩)

def noteLabel (s : State) (l : Line) : Except Fault State :=
  match l.name? with
  | none => .ok s
  | some name =>
    match s.names with
    | .error x => .error x
    | .ok ns =>
      if ((ns.get? name).bind (·.address)).isSome then .ok (s.report [.duplicateLabel name])
      else ((s.report (rangeProblems s.counter (.label name))).setAddress ns name).fillWaiting name

/-! ## The body of a section -/

def storageLine (kind : Storage) (s : State) (l : Line) : Except Fault State :=
  match kind.allot s.counter l.operands with
  | .error p => .ok (s.report [p])
  | .ok a =>
    (Problem.worded a.problems).map fun ps =>
      ((s.report ps).add (.ofAllotment a s.counter)).moveTo (s.counter + a.size)

/-- The name that an unlabelled export or import directive gives. -/
def linkedName? (l : Line) : Option String :=
  match l.name? with
  | none => onlyName? l.operands
  | some _ => none

def markExported (s : State) (ns : SectionNames (Option Int)) (name : String) : State :=
  match ns.get? name with
  | none => s.setNames (ns.insert name ⟨none, some .exported⟩)
  | some e =>
    if e.linkage = none then s.setNames (ns.insert name ⟨e.address, some .exported⟩)
    else s.report [.repeatedExport]

/-- An export directive: the record waits for the name. -/
def exportLine (s : State) (l : Line) : Except Fault State :=
  match linkedName? l with
  | none => .ok (s.report [.badExport])
  | some name =>
    s.names.map fun ns =>
      let s := (s.markExported ns name).add (.definition (.direct name) [.direct name])
      { s with waiting := s.waiting.add name (lastPlace s.drafts.length) }

def importLine (s : State) (l : Line) : Except Fault State :=
  match linkedName? l with
  | none => .ok (s.report [.badImport])
  | some name =>
    s.names.map fun ns =>
      let clash := ((ns.get? name).bind (·.linkage)).isSome
      ((s.report (if clash then [.clashingImport] else [])).setNames
        (ns.insert name ⟨none, some .imported⟩)).add (.reference name)

/-- Notes the operands that are modified, by their texts. -/
def noteModified (s : State) (ops : List Operand) : Except Fault State :=
  if Addressing.ofOperands ops = .direct then
    if ops.all Operand.hasText then
      .ok { s with modified := s.modified ++ ops.map fun op => (s.counter, op.text) }
    else .error .noDecimal
  else .ok s

/-- Lets one operand wait if it is a name the section has not met. -/
def waitFor (s : State) (op : Operand) : Except Fault State :=
  match op.referredName? with
  | none => .ok s
  | some name =>
    s.names.map fun ns =>
      if ns.contains name then s
      else
        { s.setNames (ns.insert name ⟨none, none⟩) with
          waiting := s.waiting.add name (lastPlace s.drafts.length) }

def waitForAll : State → List Operand → Except Fault State
  | s, [] => .ok s
  | s, op :: ops =>
    match s.waitFor op with
    | .error x => .error x
    | .ok s' => waitForAll s' ops

/-- Adds the record of a command, filled as far as it can be. -/
def addCommand (s : State) (r : Draft) : State :=
  match s.fill r with
  | .ok r' => s.add r'
  | .error x => (s.report [.fault x]).add r

/-- A command of the operation table; its field has to have a form at once, names apart. -/
def commandLine (use : NameUse) (op : Operation) (s : State) (l : Line) : Except Fault State :=
  let ops := l.operands
  let next := s.counter + op.size
  match commandProblems .sectioned s.counter l.mnemonic op.size ops with
  | .error x => .error x
  | .ok ps =>
    match Field.inOnePass dialect (s.scope (some "") next) op.size ops with
    | .error x => .error x
    | .ok _ =>
      match ((s.report ps).addCommand
        (.code s.counter op.size (some (codeByte op.opcode ops)) ops)).noteModified ops with
      | .error x => .error x
      | .ok s => ((s.moveTo next).report (nameUseProblems use ops)).waitForAll ops

/-- A line whose label is noted already. -/
def bodyLine (use : NameUse) (stmt : Statement) (s : State) (l : Line) : Except Fault State :=
  match stmt with
  | .finish => s.endLine l
  | .storage kind => s.storageLine kind l
  | .exportName => s.exportLine l
  | .importName => s.importLine l
  | .command op => s.commandLine use op l
  | _ => .ok (s.report [.unknownCommand l.mnemonic])

def line (table : OpTable) (use : NameUse) (s : State) (l : Line) : Except Fault State :=
  match Statement.ofMnemonic .sectioned table l.mnemonic with
  | .start => .ok (s.startLine l)
  | .newSection => s.expectStarted.sectionLine l
  | stmt =>
    match s.expectStarted.noteLabel l with
    | .error x => .error x
    | .ok s' => s'.bodyLine use stmt l

/-- Looks at the program as a whole. -/
def close (s : State) : State :=
  let ps := (if s.started then [] else [.noStart]) ++ (if s.ended then [] else [.noEnd]) ++
    rangeProblems s.counter .programEnd
  { s with found := s.found ++ Site.program.report ps }

/-- What is shown; every record has to be printable even if it is not shown. -/
def view (s : State) : Except Fault Snapshot :=
  (Draft.records dialect s.drafts).map fun rs =>
    ⟨if s.found.isEmpty then some rs else none, .sectioned s.sections, s.found⟩

end State

def pass (table : OpTable) (use : NameUse) : Pass State where
  step s _ l := State.line table use s l
  shows := showsAfter .sectioned table
  ended := (·.ended)
  close := State.close
  view := State.view

/-- Everything the pass shows of a program. -/
def trace (table : OpTable) (use : NameUse) (program : List Line) : Trace :=
  (pass table use).trace .start 1 program

end Assembler.OnePass.Sectioned
