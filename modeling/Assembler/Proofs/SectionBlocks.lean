import Mathlib.Data.List.Forall2
import Assembler.Proofs.SectionSymbols
import Assembler.Proofs.SectionedObject
import Assembler.Proofs.Tiling

/-! # The blocks of a sectioned object program

The object code of a sectioned program is one block of records for each control section, in source
order.  `SectionBlock` says what a block holds in terms of the lines of its section: a header, a
record for each line, a modification for each command with a direct name, and the end with the entry
address (`made_sectionBlocks`). -/

namespace Assembler
set_option autoImplicit false

/-- The direct name in the operands of a command. -/
def Line.directReference? (table : OpTable) (l : Line) : Option String :=
  if (l.operation? table).isSome then directName? l.operands else none

/-- The commands with a direct name among lines from an address on: where each stands, and the
name. -/
def directReferences (table : OpTable) : Int → List Line → List (Int × String)
  | _, [] => []
  | a, l :: ls =>
    ((l.directReference? table).map fun x => (a, x)).toList ++ directReferences table
      (a + l.space .sectioned table) ls

namespace ControlSection

def Imports (sec : ControlSection) (x : String) : Prop := ∃ l ∈ sec.body, l.Imports x

instance (sec : ControlSection) (x : String) : Decidable (sec.Imports x) :=
  inferInstanceAs (Decidable (∃ _ ∈ _, _))

/-- The section is entered at one of its lines or where it ends. -/
def EnteredInside (table : OpTable) (sec : ControlSection) : Prop :=
  ∃ pre post, sec.body = pre ++ post ∧ sec.entry = spaceOf .sectioned table pre

/-- The modification of a command with a direct name; it has the name if the section imports it. -/
def modification (sec : ControlSection) (m : Int × String) : ObjectRecord :=
  .modification m.1 (if sec.Imports m.2 then some m.2 else none)

end ControlSection

/-- The record of a line that stands at an address of a section. -/
inductive LineRecord (table : OpTable) (sec : ControlSection) (a : Int) (l : Line) :
    ObjectRecord → Prop
  | command {op : Operation} {field : String} : l.operation? table = some op →
    operandDigits? (.ofNames (sec.names .twoPass table) (a + op.size)) op.size l.operands =
      some field →
    LineRecord table sec a l (.code a op.size (codeByte op.opcode l.operands) field)
  | storage {kind : Storage} : Statement.ofMnemonic .sectioned table l.mnemonic = .storage kind →
    LineRecord table sec a l (storageRecord a (kind.space l.operands) (kind.digits? l.operands))
  | exported {x : String} {b : Int} : l.Exports x → sec.CarriesAt table x b →
    LineRecord table sec a l (.definition x (Text.address b))
  | imported {x : String} : l.Imports x → LineRecord table sec a l (.reference x)

/-- The records of the lines of a section: one for each line, in order, and the text records lie
without gap or overlap. -/
structure SectionLines (table : OpTable) (sec : ControlSection) (lines : List ObjectRecord) :
    Prop where
  length : lines.length = sec.body.length
  record : ∀ pre l post, sec.body = pre ++ l :: post →
    ∃ o, lines[pre.length]? = some o ∧ LineRecord table sec (spaceOf .sectioned table pre) l o
  tiles : Tiles 0 (spaceOf .sectioned table sec.body) (lines.filter (·.place?.isSome))

/-- The block of records of a section. -/
def SectionBlock (table : OpTable) (sec : ControlSection) (block : List ObjectRecord) : Prop :=
  sec.EnteredInside table ∧ ∃ lines, SectionLines table sec lines ∧
    block = .header sec.opener.label 0 (some (spaceOf .sectioned table sec.body)) ::
      (lines ++ (directReferences table 0 sec.body).map sec.modification ++ [.finish sec.entry])

/-! ## Sections and lines of a program -/

theorem prependBody_flatMap {l : Line} {secs : List ControlSection} (hne : secs ≠ [])
    {opener : Line} {ls : List Line}
    (h : secs.flatMap (fun sec => sec.opener :: sec.body) = opener :: ls) :
    (prependBody [l] secs).flatMap (fun sec => sec.opener :: sec.body) = opener :: l :: ls := by
  cases secs with
  | nil => exact absurd rfl hne
  | cons sec secs =>
    rw [List.flatMap_cons, List.cons_append, List.cons.injEq] at h
    rw [prependBody, List.flatMap_cons, ← h.1, ← h.2]
    rfl

theorem sectionsFrom_flatMap (opener : Line) {body : List Line} {last : Line} (rest : List Line)
    (hbody : ∀ l ∈ body, l.mnemonic ≠ "START" ∧ l.mnemonic ≠ "END")
    (hlast : last.mnemonic = "END") :
    (sectionsFrom opener (body ++ last :: rest)).flatMap (fun sec => sec.opener :: sec.body) =
      opener :: body := by
  induction body generalizing opener with
  | nil => simp [sectionsFrom, hlast]
  | cons l body ih =>
    have hend := (hbody l List.mem_cons_self).2
    have ih := fun opener => ih opener fun k hk => hbody k (List.mem_cons_of_mem _ hk)
    rw [List.cons_append, sectionsFrom, if_neg hend]
    by_cases hsection : l.mnemonic = "CSECT"
    · rw [if_pos hsection, List.flatMap_cons, ih]
      rfl
    · rw [if_neg hsection]
      refine prependBody_flatMap (fun hnil => ?_) (ih opener)
      have heq := ih opener
      rw [hnil] at heq
      cases heq

theorem controlSections_flatMap {program : List Line} (h : TwoPass.Sectioned.Framed program) :
    ∃ last rest, last.mnemonic = "END" ∧
      program = (controlSections program).flatMap (fun sec => sec.opener :: sec.body) ++ last ::
        rest := by
  obtain ⟨first, body, last, rest, rfl, -, hbody, hlast⟩ := h
  refine ⟨last, rest, hlast, ?_⟩
  rw [controlSections, sectionsFrom_flatMap first rest hbody hlast]
  rfl

/-! ## Commands with direct names -/

namespace TwoPass.SectionedCode

variable {table : OpTable} {use : NameUse} {sec : ControlSection}

theorem modifiedNames_eq (ht : table.Sized .sectioned) {p : Row × Int}
    (hp : p.1.line.LinkFits table use p.1.address) :
    modifiedNames table p =
      ((p.1.line.directReference? table).map fun x => (p.1.address, x)).toList := by
  unfold modifiedNames Line.directReference? Line.operation?
  split
  · next op hop =>
    have hadmitted := hp.admitted ht hop
    rw [Option.isSome_some, if_pos rfl, Option.toList_map, ← hadmitted.toList_directName?]
    split
    · rw [List.map_map]
      rfl
    · rfl
  · rfl

theorem directReferences_eq (ht : table.Sized .sectioned) {k : Option String} {a : Int}
    {ls : List Line}
    (h : ∀ p ∈ placed .sectioned table k a ls, p.1.line.LinkFits table use p.1.address) :
    (placed .sectioned table k a ls).flatMap (modifiedNames table) =
      directReferences table a ls := by
  induction ls generalizing a with
  | nil => rfl
  | cons l ls ih =>
    rw [placed, List.forall_mem_cons] at h
    rw [placed, List.flatMap_cons, modifiedNames_eq ht h.1, ih h.2, h.1.extent_eq_space]
    rfl

/-! ## Records of lines -/

theorem lineRecord_of_made (hlisted : Sectioned.Listed table use sec) (hmade : Made table sec)
    (hdefined : ∀ x, (sec.names .twoPass table).linkage? x = some .exported →
      ((sec.names .twoPass table).address? x).isSome = true) {p : Row × Int}
        (hp : p ∈ sec.rows table) :
    LineRecord table sec p.1.address p.1.line
      (linkedRecord table p ((fieldIn table sec p).getD "")) := by
  have hsize : p.2 = p.1.line.extent .sectioned table :=
    snd_of_mem_placed .sectioned table sec.opener.label hp
  obtain ⟨field, hfield⟩ := Option.isSome_iff_exists.1 (hmade.fields p hp)
  rw [hfield, Option.getD_some]
  unfold fieldIn linkedField at hfield
  unfold linkedRecord recordOf
  rcases hlisted.fits p hp with hfit | ⟨hm | hm, -, x, hx⟩
  · rcases hfit.cases with ⟨kind, al, hkind, hal, -⟩ | ⟨op, hop, -⟩
    · rw [extent_of_storage hkind, Storage.extent_eq_space hal] at hsize
      simp only [hkind, hsize]
      exact .storage hkind
    · rw [extent_of_command hop] at hsize
      simp only [hop, hsize] at hfield ⊢
      exact .command (Line.operation?_eq_some_iff.2 hop) hfield
  · have hexports : p.1.line.Exports x := ⟨hm, onlyName?_eq_some_iff.2 hx⟩
    have hlinkage : (sec.names .twoPass table).linkage? x = some .exported :=
      (NameTable.exported_iff hlisted.compatible).2
        ⟨p.1, List.mem_append_left _ (List.mem_map_of_mem hp), hexports⟩
    obtain ⟨b, hb⟩ := Option.isSome_iff_exists.1 (hdefined x hlinkage)
    obtain ⟨e, he, hb'⟩ := Option.bind_eq_some_iff.1 hb
    simp only [(Statement.ofMnemonic_eq_exportName_iff table _).2 hm, hx, operandDigits?_direct,
      Reading.ofNames, he, hb', Option.map_some, Option.getD_some, Option.some.injEq] at hfield
    simp only [(Statement.ofMnemonic_eq_exportName_iff table _).2 hm, hexports.2, Option.getD_some,
      ← hfield]
    exact .exported hexports (hlisted.address?_eq_some_iff.1 hb)
  · have himports : p.1.line.Imports x := ⟨hm, onlyName?_eq_some_iff.2 hx⟩
    simp only [(Statement.ofMnemonic_eq_importName_iff table _).2 hm, himports.2, Option.getD_some]
    exact .imported himports

theorem imported_iff {x : String} : (sec.names .twoPass table).Imported x ↔ sec.Imports x := by
  have hlines := sec.nameRows_map_line table
  rw [ControlSection.names, NameTable.imported_afterRows_empty]
  constructor
  · rintro ⟨r, hr, hx⟩
    have hl : r.line ∈ sec.lines := hlines ▸ List.mem_map_of_mem hr
    rcases ControlSection.mem_lines_cases hl with hl | hend
    · exact ⟨r.line, hl, hx⟩
    · simp [hx.1] at hend
  · rintro ⟨l, hl, hx⟩
    have hl : l ∈ (sec.nameRows table).map (·.line) := hlines ▸ List.mem_append_left _ hl
    obtain ⟨r, hr, rfl⟩ := List.mem_map.1 hl
    exact ⟨r, hr, hx⟩

theorem place?_linkedRecord (ht : table.Sized .sectioned) {p : Row × Int}
    (hp : p.1.line.LinkFits table use p.1.address) (hsize : p.2 = p.1.line.extent .sectioned table)
    (field : String) :
    0 ≤ p.2 ∧ (linkedRecord table p field).place? = some (p.1.address, p.2) ∨
      p.2 = 0 ∧ (linkedRecord table p field).place? = none := by
  unfold linkedRecord
  rcases hp with hfit | ⟨hm | hm, -⟩
  · refine .inl ⟨hsize ▸ hfit.extent_nonneg ht, ?_⟩
    have hplace := place?_recordOf hfit field
    rcases hfit.cases with ⟨kind, al, hkind, -⟩ | ⟨op, hop, -⟩
    · simpa only [hkind] using hplace
    · simpa only [hop] using hplace
  · have hst := (Statement.ofMnemonic_eq_exportName_iff table _).2 hm
    refine .inr ⟨by simp only [hsize, Line.extent, hst], ?_⟩
    simp only [hst]
    rfl
  · have hst := (Statement.ofMnemonic_eq_importName_iff table _).2 hm
    refine .inr ⟨by simp only [hsize, Line.extent, hst], ?_⟩
    simp only [hst]
    rfl

/-! ## Blocks of sections -/

theorem extentOf_front (hlisted : Sectioned.Listed table use sec) {pre post : List Line}
    (hcut : sec.body = pre ++ post) :
    extentOf .sectioned table pre = spaceOf .sectioned table pre := by
  apply hlisted.extentOf_eq_spaceOf
  intro l hl
  apply List.mem_append_left
  rw [hcut]
  exact List.mem_append_left _ hl

theorem length_eq_spaceOf (hlisted : Sectioned.Listed table use sec) :
    sec.length table = spaceOf .sectioned table sec.body :=
  extentOf_front hlisted (List.append_nil _).symm

theorem enteredInside_of_made (hlisted : Sectioned.Listed table use sec) (hmade : Made table sec) :
    sec.EnteredInside table := by
  obtain ⟨p, hp, hentry⟩ := hmade.entry
  rw [sizedBlock, List.mem_cons, List.mem_append, List.mem_singleton] at hp
  rcases hp with rfl | hp | rfl
  · exact ⟨[], sec.body, rfl, hentry.symm⟩
  · obtain ⟨pre, l, post, hcut, rfl⟩ := (mem_placed_iff .sectioned table sec.opener.label).1 hp
    refine ⟨pre, l :: post, hcut, ?_⟩
    rw [← extentOf_front hlisted hcut, ← hentry, Int.zero_add]
  · refine ⟨sec.body, [], (List.append_nil _).symm, ?_⟩
    rw [← length_eq_spaceOf hlisted, ← hentry]

theorem sectionLines_of_made (ht : table.Sized .sectioned)
    (hlisted : Sectioned.Listed table use sec) (hmade : Made table sec)
    (hdefined : ∀ x, (sec.names .twoPass table).linkage? x = some .exported →
      ((sec.names .twoPass table).address? x).isSome = true) :
    SectionLines table sec
      ((sec.rows table).map fun p => linkedRecord table p ((fieldIn table sec p).getD "")) := by
  refine ⟨by simp [ControlSection.rows], fun pre l post hcut => ?_, ?_⟩
  · have hrow : (sec.rows table)[pre.length]? =
        some (⟨spaceOf .sectioned table pre, l, sec.opener.label⟩, l.extent .sectioned table) := by
      rw [ControlSection.rows, hcut, placed_append, List.getElem?_append_right (by simp),
        placed_length, Nat.sub_self, Int.zero_add, extentOf_front hlisted hcut]
      rfl
    refine ⟨_, by rw [List.getElem?_map, hrow, Option.map_some], ?_⟩
    exact lineRecord_of_made hlisted hmade hdefined (List.mem_of_getElem? hrow)
  · rw [← length_eq_spaceOf hlisted, ControlSection.length, ← Int.zero_add (extentOf _ _ _)]
    exact tiles_placed fun p hp => place?_linkedRecord ht (hlisted.fits p hp)
      (snd_of_mem_placed .sectioned table sec.opener.label hp) _

theorem sectionBlock_recordsOf (ht : table.Sized .sectioned)
    (hlisted : Sectioned.Listed table use sec) (hmade : Made table sec)
    (hdefined : ∀ x, (sec.names .twoPass table).linkage? x = some .exported →
      ((sec.names .twoPass table).address? x).isSome = true) :
    SectionBlock table sec (recordsOf table sec) := by
  refine ⟨enteredInside_of_made hlisted hmade, _, sectionLines_of_made ht hlisted hmade hdefined,
    ?_⟩
  have hreferences :
      (sec.rows table).flatMap (modifiedNames table) = directReferences table 0 sec.body :=
    directReferences_eq ht hlisted.fits
  have hmodification : modificationRecord (sec.names .twoPass table) = sec.modification := by
    funext m
    simp only [modificationRecord, ControlSection.modification, imported_iff]
  rw [recordsOf, length_eq_spaceOf hlisted, hreferences, hmodification]

end TwoPass.SectionedCode

/-- The object code of a sectioned program that two passes accept is one block of records for each
control section, in source order, and the modifications are the commands with a direct name, each
with the label of its section. -/
theorem made_sectionBlocks (table : OpTable) (ht : table.Sized .sectioned)
    (hav : table.Avoids TwoPass.SectionedCode.reserved) (i : Int) (program : List Line)
    (rows : List Row) (symbols : Symbols) (records : List ObjectRecord)
    (written : List Modification)
      (h : assembleTwice ⟨.sectioned, .twoPass⟩ table (.ofIndex i) program =
        .ok (.listed rows symbols, some (.ok (.made records written)))) :
    (∃ last rest, last.mnemonic = "END" ∧
      program = (controlSections program).flatMap (fun sec => sec.opener :: sec.body) ++
        last :: rest) ∧
    (∃ blocks, List.Forall₂ (SectionBlock table) (controlSections program) blocks ∧
      records = blocks.flatten) ∧
    written = (controlSections program).flatMap fun sec =>
      (directReferences table 0 sec.body).map fun m => ⟨m.1, m.2, sec.opener.label⟩ := by
  obtain ⟨hlist, hmake⟩ := assembleTwice_eq_made_iff.1 h
  obtain ⟨hframed, sections, rfl, haccepted, hdefined⟩ := TwoPass.Sectioned.of_list hlist
  obtain ⟨rfl, rfl, hmade⟩ := TwoPass.SectionedCode.of_make ht hav haccepted hmake
  refine ⟨controlSections_flatMap hframed,
    ⟨(controlSections program).map (TwoPass.SectionedCode.recordsOf table), ?_, ?_⟩, ?_⟩
  · rw [List.forall₂_map_right_iff, List.forall₂_same]
    intro sec hsec
    obtain ⟨names, hget, hnames⟩ := haccepted.names hsec
    exact TwoPass.SectionedCode.sectionBlock_recordsOf ht (haccepted.listed sec hsec)
      (hmade sec hsec) (hnames ▸ hdefined _ names hget)
  · rw [List.flatMap_def]
  · refine List.flatMap_congr fun sec hsec => ?_
    rw [TwoPass.SectionedCode.modificationsOf,
      ← TwoPass.SectionedCode.directReferences_eq ht (haccepted.listed sec hsec).fits]
    rfl

/-- Two sections; the first one exports a name, imports one, refers to both and is entered at its
last line. -/
def linkedSections : List Line :=
  [⟨some "MAIN", ⟨"START", []⟩⟩, ⟨none, ⟨"EXTDEF", [.direct "GO"]⟩⟩,
    ⟨none, ⟨"EXTREF", [.direct "OUT"]⟩⟩, ⟨some "A", ⟨"JMP", [.direct "OUT"]⟩⟩,
    ⟨none, ⟨"JMP", [.direct "GO"]⟩⟩, ⟨some "GO", ⟨"LDR", [.relative "A"]⟩⟩,
    ⟨some "PART", ⟨"CSECT", [.number 8]⟩⟩, ⟨some "A", ⟨"BYTE", [.chars "xy"]⟩⟩,
    ⟨none, ⟨"RESW", [.number 2]⟩⟩, ⟨some "E", ⟨"END", []⟩⟩]

/-- The object code of the two sections. -/
def linkedRecords : List ObjectRecord :=
  [.header (some "MAIN") 0 (some 11), .definition "GO" "000008", .reference "OUT",
    .code 0 4 5 "000000", .code 4 4 5 "000008", .code 8 3 10 "FFF5", .modification 0 (some "OUT"),
    .modification 4 none, .finish 8, .header (some "PART") 0 (some 8), .data 0 2 "7879", .space 2 6,
    .finish 0]

theorem linkedSections_blocks :
    jumpAndLoad.Sized .sectioned ∧ jumpAndLoad.Avoids TwoPass.SectionedCode.reserved ∧
      (∃ rows symbols,
        assembleTwice ⟨.sectioned, .twoPass⟩ jumpAndLoad (.ofIndex 2) linkedSections =
          .ok (.listed rows symbols,
            some (.ok (.made linkedRecords [⟨0, "OUT", some "MAIN"⟩, ⟨4, "GO", some "MAIN"⟩])))) ∧
      (∃ blocks, List.Forall₂ (SectionBlock jumpAndLoad) (controlSections linkedSections) blocks ∧
        linkedRecords = blocks.flatten) := by
  have ht : jumpAndLoad.Sized .sectioned := OpTable.sized_of_forall (by decide +kernel)
  have hav : jumpAndLoad.Avoids TwoPass.SectionedCode.reserved := by
    unfold OpTable.Avoids; decide +kernel
  obtain ⟨rows, symbols, h⟩ :
      ∃ rows symbols, assembleTwice ⟨.sectioned, .twoPass⟩ jumpAndLoad (.ofIndex 2) linkedSections =
        .ok (.listed rows symbols,
          some (.ok (.made linkedRecords [⟨0, "OUT", some "MAIN"⟩, ⟨4, "GO", some "MAIN"⟩]))) :=
    ⟨_, _, rfl⟩
  exact ⟨ht, hav, ⟨rows, symbols, h⟩, (made_sectionBlocks _ ht hav 2 _ _ _ _ _ h).2.1⟩

end Assembler
