import Assembler.Proofs.MovedListing
import Assembler.Proofs.ParsedStrings
import Assembler.Proofs.SectionBlocks

/-! # Relocation of sectioned object programs

A modification without a name says that the operand of the command at its address has to be moved
with the section.  This is borne out by running the second pass twice: on a moved listing it makes
the same records, with moved addresses, and the operands that have changed are those of the commands
whose modification has no name (`made_moved`).  There is one bound: the pass puts the addresses of
the modifications down in decimal, and fails if one of them has become too long for that.

Section by section, the records of the one run are known from the lines of the section, and those of
the other run follow them row by row. -/

namespace Assembler
set_option autoImplicit false

def ObjectRecord.isHeader : ObjectRecord → Bool
  | .header _ _ _ => true
  | _ => false

/-- The records of a section and those of the moved section: the block begins with its only header,
and the operands that move are those with a modification in the block that has no name. -/
structure BlockMoved (k : Int) (b b' : List ObjectRecord) : Prop where
  opened : ∃ head rest, b = head :: rest ∧ head.isHeader = true ∧ ∀ o ∈ rest, o.isHeader = false
  moved : List.Forall₂ (ObjectRecord.Moved k fun a => .modification a none ∈ b) b b'

/-! ## Lines of sections -/

theorem mem_of_mem_prependBody {l : Line} {secs : List ControlSection} {sec : ControlSection}
    (h : sec ∈ prependBody [l] secs) :
    ∃ sec' ∈ secs, sec.closer = sec'.closer ∧ ∀ m ∈ sec.body, m = l ∨ m ∈ sec'.body := by
  cases secs with
  | nil => cases h
  | cons sec' secs =>
    cases List.mem_cons.1 h with
    | inl hfirst =>
      subst hfirst
      exact ⟨sec', List.mem_cons_self, rfl, fun m hm => List.mem_cons.1 hm⟩
    | inr hrest => exact ⟨sec, List.mem_cons_of_mem _ hrest, rfl, fun m hm => .inr hm⟩

theorem mem_of_mem_sectionsFrom {opener : Line} {ls : List Line} {sec : ControlSection}
    (h : sec ∈ sectionsFrom opener ls) : sec.closer ∈ ls ∧ ∀ m ∈ sec.body, m ∈ ls := by
  induction ls generalizing opener sec with
  | nil => cases h
  | cons l ls ih =>
    have hbehind : ∀ {opener sec}, sec ∈ sectionsFrom opener ls → sec.closer ∈ l :: ls ∧
        ∀ m ∈ sec.body, m ∈ l :: ls :=
      fun hsec =>
        ⟨List.mem_cons_of_mem _ (ih hsec).1, fun m hm => List.mem_cons_of_mem _ ((ih hsec).2 m hm)⟩
    rw [sectionsFrom] at h
    split_ifs at h
    · obtain rfl := List.mem_singleton.1 h
      exact ⟨List.mem_cons_self, by simp⟩
    · cases List.mem_cons.1 h with
      | inl hfirst =>
        subst hfirst
        exact ⟨List.mem_cons_self, by simp⟩
      | inr hrest => exact hbehind hrest
    · obtain ⟨sec', hsec', hcloser, hbody⟩ := mem_of_mem_prependBody h
      refine ⟨hcloser ▸ (hbehind hsec').1, fun m hm => ?_⟩
      cases hbody m hm with
      | inl hl => exact hl ▸ List.mem_cons_self
      | inr hm => exact (hbehind hsec').2 m hm

theorem mem_of_mem_controlSections {program : List Line} {sec : ControlSection}
    (h : sec ∈ controlSections program) :
    sec.closer ∈ program ∧ ∀ m ∈ sec.body, m ∈ program := by
  cases program with
  | nil => cases h
  | cons first ls =>
    obtain ⟨hcloser, hbody⟩ := mem_of_mem_sectionsFrom h
    exact ⟨List.mem_cons_of_mem _ hcloser, fun m hm => List.mem_cons_of_mem _ (hbody m hm)⟩

theorem line_mem_of_mem_rows {table : OpTable} {sec : ControlSection} {p : Row × Int}
    (hp : p ∈ sec.rows table) :
    p.1.line ∈ sec.body := by
  rw [← placed_map_line .sectioned table sec.opener.label 0 sec.body]
  exact List.mem_map_of_mem hp

/-- The end directive of a program closes its last section. -/
theorem exists_last_sectionsFrom (opener : Line) {body : List Line} {last : Line} (rest : List Line)
    (hbody : ∀ l ∈ body, l.mnemonic ≠ "START" ∧ l.mnemonic ≠ "END")
    (hlast : last.mnemonic = "END") :
    ∃ done sec, sectionsFrom opener (body ++ last :: rest) = done ++ [sec] ∧ sec.closer = last := by
  induction body generalizing opener with
  | nil => exact ⟨[], ⟨opener, [], last⟩, by simp [sectionsFrom, hlast], rfl⟩
  | cons l body ih =>
    have hend := (hbody l List.mem_cons_self).2
    have ih := fun opener => ih opener fun m hm => hbody m (List.mem_cons_of_mem _ hm)
    rw [List.cons_append, sectionsFrom, if_neg hend]
    split_ifs
    · obtain ⟨done, sec, hcut, hcloser⟩ := ih l
      exact ⟨⟨opener, [], l⟩ :: done, sec, by rw [hcut, List.cons_append], hcloser⟩
    · obtain ⟨done, sec, hcut, hcloser⟩ := ih opener
      rw [hcut]
      cases done with
      | nil => exact ⟨[], _, rfl, hcloser⟩
      | cons first done => exact ⟨_ :: done, sec, rfl, hcloser⟩

/-! ## Names and commands of a section -/

theorem SectionSymbols.carried_iff {table : OpTable} {sec : ControlSection}
    {names : SectionNames (Option Int)} (h : SectionSymbols table sec names) {x : String} :
    (∃ l ∈ sec.lines, l.name? = some x) ↔ ∃ a, NameTable.address? names.get? x = some a := by
  constructor
  · intro hcarried
    obtain ⟨l, hl, hname⟩ := hcarried
    obtain ⟨pre, post, hcut⟩ := List.append_of_mem hl
    exact ⟨_, (h.address x _).2 ⟨pre, l, post, hcut, hname, rfl⟩⟩
  · intro haddress
    obtain ⟨a, ha⟩ := haddress
    obtain ⟨pre, l, post, hcut, hname, -⟩ := (h.address x a).1 ha
    exact ⟨l, by rw [hcut]; simp, hname⟩

theorem SectionSymbols.address?_eq_none_iff {table : OpTable} {sec : ControlSection}
    {names : SectionNames (Option Int)} (h : SectionSymbols table sec names) {x : String}
    (hx : (names.get? x).isSome = true) :
    NameTable.address? names.get? x = none ↔ NameTable.Imported names.get? x := by
  have hcarried : (∃ l ∈ sec.lines, l.name? = some x) ↔ NameTable.address? names.get? x ≠ none := by
    rw [Option.ne_none_iff_exists', h.carried_iff]
  rw [NameTable.Imported, h.imported]
  constructor
  · intro hnone
    obtain ⟨l, hl, hname | hexports | himports⟩ := (h.known x).1 hx
    · exact absurd hnone (hcarried.1 ⟨l, hl, hname⟩)
    · exact absurd hnone (hcarried.1 (h.exported_carried x ⟨l, hl, hexports⟩))
    · exact ⟨l, hl, himports⟩
  · intro himported
    by_contra hsome
    obtain ⟨l, hl, hname⟩ := hcarried.2 hsome
    exact h.imported_not_carried x himported l hl hname

theorem directName?_isSome_of_mem {ops : List Operand} {x : String} (h : .direct x ∈ ops) :
    (directName? ops).isSome = true := by
  induction ops with
  | nil => cases h
  | cons op ops ih =>
    cases op with
    | direct y => rfl
    | _ => exact ih (by simpa using h)

theorem Admitted.address_of_directName? {size : Int} {ops : List Operand} {x : String}
    (h : Admitted size ops) (hx : directName? ops = some x) : size = 4 ∧ ops = [.direct x] := by
  cases h with
  | address y =>
    obtain rfl := Option.some.inj hx
    exact ⟨rfl, rfl⟩
  | character op hop => cases op <;> simp [directName?, Operand.isString] at hx hop
  | text op v hop => cases op <;> simp [directName?, Operand.isString] at hx hop
  | _ => simp [directName?] at hx

/-- The record stands for a line of a section and not for the section or a modification. -/
def ObjectRecord.isOfLine : ObjectRecord → Bool
  | .header _ _ _ | .modification _ _ | .finish _ => false
  | _ => true

theorem isOfLine_linkedRecord (table : OpTable) (p : Row × Int) (field : String) :
    (linkedRecord table p field).isOfLine = true := by
  unfold linkedRecord recordOf storageRecord
  split
  · rfl
  · rfl
  · split
    · rfl
    · split <;> rfl
    · rfl

theorem ObjectRecord.isHeader_of_isOfLine {o : ObjectRecord} (h : o.isOfLine = true) :
    o.isHeader = false := by
  cases o <;> first | rfl | cases h

namespace TwoPass.SectionedCode

variable {table : OpTable} {use : NameUse} {cs : ControlSection} {added : List ObjectRecord}
  {p : Row × Int}

/-! ## Modifications of a block -/

theorem opened_recordsOf (table : OpTable) (cs : ControlSection)
    (hadded : ∀ o ∈ added, o.isOfLine = true) :
    ∃ head rest, recordsOf table cs ++ added = head :: rest ∧ head.isHeader = true ∧ ∀ o ∈ rest,
      o.isHeader = false := by
  rw [recordsOf, List.cons_append]
  refine ⟨_, _, rfl, rfl, fun o ho => ?_⟩
  simp only [List.mem_append, List.mem_map, List.mem_singleton] at ho
  obtain ((⟨p, -, rfl⟩ | ⟨m, -, rfl⟩) | rfl) | ho := ho
  · exact ObjectRecord.isHeader_of_isOfLine (isOfLine_linkedRecord table p _)
  · rfl
  · rfl
  · exact ObjectRecord.isHeader_of_isOfLine (hadded o ho)

theorem modification_mem_iff (ht : table.Sized .sectioned) (hlisted : Sectioned.Listed table use cs)
    (hadded : ∀ o ∈ added, o.isOfLine = true) {a : Int} :
    .modification a none ∈ recordsOf table cs ++ added ↔ ∃ p ∈ cs.rows table, p.1.address = a ∧
      ∃ x, p.1.line.directReference? table = some x ∧ ¬ (cs.names .twoPass table).Imported x := by
  have hlines : ∀ p : Row × Int, ∀ field, linkedRecord table p field ≠ .modification a none :=
    fun p field heq => by
    simpa [heq, ObjectRecord.isOfLine] using isOfLine_linkedRecord table p field
  have hcommands : .modification a none ∉ added :=
    fun h => by simpa [ObjectRecord.isOfLine] using hadded _ h
  have hrecord : ∀ m, modificationRecord (cs.names .twoPass table) m = .modification a none ↔
      m.1 = a ∧ ¬ (cs.names .twoPass table).Imported m.2 := fun m => by simp [modificationRecord]
  simp only [recordsOf, List.cons_append, List.mem_cons, List.mem_append, List.mem_map,
    List.mem_flatMap, hlines, hcommands, hrecord, reduceCtorEq, and_false, exists_false, false_or,
    or_false, List.not_mem_nil]
  constructor
  · intro hmodified
    obtain ⟨m, ⟨p, hp, hm⟩, ha, himported⟩ := hmodified
    rw [modifiedNames_eq ht (hlisted.fits p hp), Option.mem_toList, Option.map_eq_some_iff] at hm
    obtain ⟨x, hx, rfl⟩ := hm
    exact ⟨p, hp, ha, x, hx, himported⟩
  · intro hcommand
    obtain ⟨p, hp, ha, x, hx, himported⟩ := hcommand
    refine ⟨(p.1.address, x), ⟨p, hp, ?_⟩, ha, himported⟩
    rw [modifiedNames_eq ht (hlisted.fits p hp), hx]
    simp

theorem rows_nonneg (ht : table.Sized .sectioned) (hlisted : Sectioned.Listed table use cs) :
    ∀ p ∈ cs.rows table, 0 ≤ p.2 := by
  intro p hp
  rw [snd_of_mem_placed .sectioned table cs.opener.label hp]
  exact (hlisted.fits p hp).extent_nonneg ht

theorem size_pos_of_command (ht : table.Sized .sectioned) (hp : p ∈ cs.rows table) {op : Operation}
    (hop : p.1.line.operation? table = some op) : 0 < p.2 := by
  have hcommand := Line.operation?_eq_some_iff.1 hop
  rw [snd_of_mem_placed .sectioned table cs.opener.label hp, extent_of_command hcommand]
  have hsize := Layout.mem_commandSizes (ht.mem_commandSizes hcommand)
  omega

theorem operation_of_directReference? {l : Line} {x : String}
    (h : l.directReference? table = some x) :
    (∃ op, l.operation? table = some op) ∧ directName? l.operands = some x := by
  unfold Line.directReference? at h
  split at h
  · next hop => exact ⟨Option.isSome_iff_exists.1 hop, h⟩
  · cases h

theorem modification_mem_iff_of_command (ht : table.Sized .sectioned)
    (hlisted : Sectioned.Listed table use cs) (hadded : ∀ o ∈ added, o.isOfLine = true)
    (hp : p ∈ cs.rows table) {op : Operation} (hop : p.1.line.operation? table = some op) :
    .modification p.1.address none ∈ recordsOf table cs ++ added ↔
      ∃ x, directName? p.1.line.operands = some x ∧ ¬ (cs.names .twoPass table).Imported x := by
  rw [modification_mem_iff ht hlisted hadded]
  constructor
  · intro hcommand
    obtain ⟨q, hq, haddress, x, hx, himported⟩ := hcommand
    obtain ⟨⟨op', hop'⟩, hname⟩ := operation_of_directReference? hx
    obtain rfl : q = p :=
      eq_of_address_eq (rows_nonneg ht hlisted) hq hp (size_pos_of_command ht hq hop')
        (size_pos_of_command ht hp hop) haddress
    exact ⟨x, hname, himported⟩
  · intro hname
    obtain ⟨x, hname, himported⟩ := hname
    exact ⟨p, hp, rfl, x, by rw [Line.directReference?, hop]; exact hname, himported⟩

theorem not_modification_at_end (ht : table.Sized .sectioned)
    (hlisted : Sectioned.Listed table use cs) (hadded : ∀ o ∈ added, o.isOfLine = true) :
    .modification (cs.length table) none ∉ recordsOf table cs ++ added := by
  rw [modification_mem_iff ht hlisted hadded]
  intro hcommand
  obtain ⟨q, hq, haddress, x, hx, -⟩ := hcommand
  obtain ⟨⟨op, hop⟩, -⟩ := operation_of_directReference? hx
  have hpos := size_pos_of_command ht hq hop
  have hbound := ((bounds_of_nonneg (rows_nonneg ht hlisted)).2 q hq).2
  have hlength : cs.length table = extentOf .sectioned table cs.body := rfl
  omega

/-! ## Rows that move -/

theorem operation?_of_get? (hav : table.Avoids sectionedDirectives) {l : Line} {a : Int}
    (h : l.LinkFits table use a) {op : Operation} (hop : table.get? l.mnemonic = some op) :
    l.operation? table = some op := by
  have hdirective : l.mnemonic ∉ sectionedDirectives := fun hm => by simp [hav _ hm] at hop
  obtain hfit | ⟨hm | hm, -⟩ := h
  · obtain ⟨kind, al, hkind, -⟩ | ⟨op', hop', -⟩ := hfit.cases
    · have hm : l.mnemonic = kind.mnemonic := Statement.stands_of_eq hkind
      exact absurd (by rw [hm]; cases kind <;> decide) hdirective
    · rw [Line.operation?_eq_some_iff, hop',
        Option.some.inj ((Statement.stands_of_eq hop').1.symm.trans hop)]
  · exact absurd (by rw [hm]; decide) hdirective
  · exact absurd (by rw [hm]; decide) hdirective

section

variable {ns : SectionNames (Option Int)} (ht : table.Sized .sectioned)
  (hav : table.Avoids sectionedDirectives) (hlisted : Sectioned.Listed table use cs)
    (hadded : ∀ o ∈ added, o.isOfLine = true)

include hav hlisted in
theorem movable_opener (N : NameTable) (patched : Int → Prop) (a : Int) (label : Option String) :
    Movable table N patched ⟨a, cs.opener, label⟩ := by
  have hget : table.get? cs.opener.mnemonic = none :=
    hav _ (by cases hlisted.opener with | inl hm | inr hm => rw [hm]; decide)
  refine ⟨fun hm => ?_, fun hm => ?_, fun op hop => ?_⟩
  · cases hlisted.opener with | inl h | inr h => simp [h, Sectioned.sectionEnd] at hm
  · cases hlisted.opener with | inl h | inr h => simp [h] at hm
  · simp [hget] at hop

include ht hlisted hadded in
theorem movable_closer (hclosed : cs.closer.operands = []) (N : NameTable) (label : Option String) :
    Movable table N (fun a => .modification a none ∈ recordsOf table cs ++ added)
      ⟨cs.length table, Sectioned.closingLine cs.closer, label⟩ := by
  have hoperands : (Sectioned.closingLine cs.closer).operands = [] := by
    rw [closingLine_operands, hclosed]
  refine ⟨fun _ => hoperands, fun hm => ?_,
    fun op _ => .inr ⟨not_modification_at_end ht hlisted hadded, fun x hx => ?_⟩⟩
  · cases closingLine_mnemonic hlisted.closer with
    | inl h => rw [h] at hm; simp [Sectioned.sectionEnd] at hm
    | inr h => rw [h] at hm; simp at hm
  · rw [hoperands] at hx
    cases hx

theorem known_of_made (hmade : Made table cs) (hp : p ∈ cs.rows table) {op : Operation}
    (hop : p.1.line.operation? table = some op) (hsize : op.size = 4) {x : String}
    (hx : p.1.line.operands = [.direct x]) : (cs.names .twoPass table x).isSome = true := by
  have hfield := hmade.fields p hp
  simp only [fieldIn, linkedField, Line.operation?_eq_some_iff.1 hop, hsize, hx,
    operandDigits?_direct] at hfield
  simpa [Reading.ofNames] using hfield

include ht hav hlisted hadded in
theorem movable_row (hmade : Made table cs) (hsymbols : SectionSymbols table cs ns)
    (hnames : ns.get? = cs.names .twoPass table) (hp : p ∈ cs.rows table)
    (hend : p.1.line.mnemonic ≠ Sectioned.sectionEnd) :
    Movable table ns.get? (fun a => .modification a none ∈ recordsOf table cs ++ added) p.1 := by
  have hfits := hlisted.fits p hp
  refine ⟨fun hm => ?_, fun hm => ?_, fun op hop => ?_⟩
  · cases hm with
    | inl hm => exact absurd hm hend
    | inr hm =>
      obtain hfit | ⟨hlink, -⟩ := hfits
      · exact absurd hm hfit.not_frame.2
      · simp [hm] at hlink
  · obtain ⟨-, x, hx⟩ :=
      hfits.operands_of_export ((Statement.ofMnemonic_eq_exportName_iff table _).2 hm)
    have hexported := hsymbols.exported_carried x
      ⟨p.1.line, List.mem_append_left _ (line_mem_of_mem_rows hp), hm, onlyName?_eq_some_iff.2 hx⟩
    obtain ⟨a, ha⟩ := hsymbols.carried_iff.1 hexported
    exact ⟨x, a, hx, ha⟩
  · have hoperation := operation?_of_get? hav hfits hop
    have hadmitted := hfits.admitted ht (Line.operation?_eq_some_iff.1 hoperation)
    have hiff := modification_mem_iff_of_command ht hlisted hadded hp hoperation
    cases hname : directName? p.1.line.operands with
    | none =>
      refine .inr ⟨fun hmem => ?_, fun x hx => ?_⟩
      · obtain ⟨x, hx, -⟩ := hiff.1 hmem
        simp [hname] at hx
      · simpa [hname] using directName?_isSome_of_mem hx
    | some x =>
      obtain ⟨hsize, hoperands⟩ := hadmitted.address_of_directName? hname
      have hknown : (ns.get? x).isSome = true :=
        hnames ▸ known_of_made hmade hp hoperation hsize hoperands
      have hnone := hsymbols.address?_eq_none_iff hknown
      by_cases himported : NameTable.Imported ns.get? x
      · refine .inr ⟨fun hmem => ?_, fun y hy => ?_⟩
        · obtain ⟨y, hy, hlocal⟩ := hiff.1 hmem
          obtain rfl := Option.some.inj (hname.symm.trans hy)
          exact hlocal (hnames ▸ himported)
        · obtain rfl : y = x := by simpa [hoperands] using hy
          exact hnone.2 himported
      · obtain ⟨a, ha⟩ := Option.ne_none_iff_exists'.1 fun h => himported (hnone.1 h)
        exact .inl ⟨hiff.2 ⟨x, hname, hnames ▸ himported⟩, hsize, x, a, hoperands, ha⟩

end

/-! ## Sections and programs that move -/

variable {k : Int} {e e₁ e' : Emission} {sections : Sections (Option Int)}
  {ns : SectionNames (Option Int)}

/-- What the passes have settled for a section: it is listed, its names are known, no line of it is
the directive between sections, and the directive that closes it has no operand. -/
structure Settled (table : OpTable) (use : NameUse) (sections : Sections (Option Int))
    (cs : ControlSection) : Prop where
  listed : Sectioned.Listed table use cs
  names : ∃ ns, sections.get? cs.opener.label = some ns ∧ ns.get? = cs.names .twoPass table ∧
    SectionSymbols table cs ns
  written : ∀ p ∈ cs.rows table, p.1.line.mnemonic ≠ Sectioned.sectionEnd
  closed : cs.closer.operands = []

/-- What has been made of whole sections of a listing, and of the same sections of the moved
listing. -/
structure Emission.BlocksFollow (k : Int) (e e' : Emission) : Prop where
  records : ∃ blocks blocks', e.records = blocks.flatten ∧ e'.records = blocks'.flatten ∧
    List.Forall₂ (BlockMoved k) blocks blocks'
  written : e'.written = e.written.map (Modification.moved k)
  found : e'.found = []
  told : ∀ m ∈ e.written, Text.hasDecimal (m.address + k) = true

theorem addSection_moved (ht : table.Sized .sectioned) (hav : table.Avoids sectionedDirectives)
    (hcs : Settled table use sections cs) {sec' : Section}
    (hrows : Section.RowsMoved k ⟨cs.opener.label, sizedBlock table cs⟩ sec')
    (h : addRows dialect (.ofSections sections) table ⟨cs.opener.label, sizedBlock table cs⟩
      { e with open_ := [] } (sizedBlock table cs) = .ok e₁) (hf : e₁.found = [])
        (hsim : e.BlocksFollow k e') :
    e₁.MovesTo k (e₁.BlocksFollow k)
      (addRows dialect (.ofSections (sections.moved k)) table sec'
        { e' with open_ := [] } sec'.rows) := by
  obtain ⟨ns, hns, hnames, hsymbols⟩ := hcs.names
  obtain ⟨hmade, -, added, hrecords, -, hcode⟩ :=
    addSection_clean ht hav hcs.listed hcs.written hns hnames rfl h hf
  have hadded : ∀ o ∈ added, o.isOfLine = true := by
    intro o ho
    obtain ⟨a, size, byte, field, rfl⟩ := hcode o ho
    rfl
  have hmovable : ∀ p ∈ sizedBlock table cs,
      Movable table ns.get? (fun a => .modification a none ∈ recordsOf table cs ++ added) p.1 := by
    intro p hp
    rw [sizedBlock, List.mem_cons, List.mem_append, List.mem_singleton] at hp
    obtain rfl | hp | rfl := hp
    · exact movable_opener hav hcs.listed _ _ _ _
    · exact movable_row ht hav hcs.listed hadded hmade hsymbols hnames hp (hcs.written p hp)
    · exact movable_closer ht hcs.listed hadded hcs.closed _ _
  have hsec := hrows.moved (by simp [sizedBlock])
  have hstart : ({ e with open_ := [] } : Emission).Follows k
      (fun a => .modification a none ∈ recordsOf table cs ++ added) e.records e'.records
        { e' with open_ := [] } :=
    ⟨⟨[], [], by simp, by simp, .nil⟩, rfl, hsim.written, hsim.found, hsim.told⟩
  have hmoves := addRows_moved (hav _ (by decide)) hsec hns hrows.rows hmovable h hf hstart
  generalize addRows dialect (.ofSections (sections.moved k)) table sec'
    { e' with open_ := [] } sec'.rows = step at hmoves ⊢
  cases hmoves with
  | untold hm hlost => exact .untold hm hlost
  | made hfollows =>
    obtain ⟨b, b', hb, hb', hmoved⟩ := hfollows.records
    obtain rfl : b = recordsOf table cs ++ added := List.append_cancel_left (hb.symm.trans hrecords)
    obtain ⟨blocks, blocks', hblocks, hblocks', hall⟩ := hsim.records
    refine .made ⟨⟨blocks ++ [recordsOf table cs ++ added], blocks' ++ [b'], ?_, ?_, ?_⟩,
      hfollows.written, hfollows.found, hfollows.told⟩
    · rw [hb, hblocks, List.flatten_concat]
    · rw [hb', hblocks', List.flatten_concat]
    · exact List.rel_append hall (.cons ⟨opened_recordsOf table cs hadded, hmoved⟩ .nil)

theorem addSections_moved (ht : table.Sized .sectioned) (hav : table.Avoids sectionedDirectives)
    {secs : List ControlSection} (hsecs : ∀ cs ∈ secs, Settled table use sections cs)
    {secs' : List Section}
    (hmoved : List.Forall₂ (Section.RowsMoved k)
      (secs.map fun cs => ⟨cs.opener.label, sizedBlock table cs⟩) secs')
        (h : addSections dialect (.ofSections sections) table e
          (secs.map fun cs => ⟨cs.opener.label, sizedBlock table cs⟩) = .ok e₁) (hf : e₁.found = [])
    (hsim : e.BlocksFollow k e') :
    e₁.MovesTo k (e₁.BlocksFollow k)
      (addSections dialect (.ofSections (sections.moved k)) table e' secs') := by
  induction secs generalizing e e' secs' with
  | nil =>
    cases hmoved
    obtain rfl := Except.ok.inj h
    exact .made hsim
  | cons cs secs ih =>
    rw [List.map_cons] at hmoved h
    cases hmoved with
    | @cons _ sec' _ secs' hsec hrest =>
      rw [addSections] at h
      split at h
      · cases h
      · next e₂ he₂ =>
        have hsection :=
          addSection_moved ht hav (hsecs cs List.mem_cons_self) hsec he₂
            (found_addSections h hf) hsim
        rw [addSections]
        generalize addRows dialect (.ofSections (sections.moved k)) table sec'
          { e' with open_ := [] } sec'.rows = step at hsection
        cases hsection with
        | made hsim₂ => exact ih (fun c hc => hsecs c (List.mem_cons_of_mem _ hc)) hrest h hsim₂
        | untold hm hlost => exact .untold ((written_addSections h hf).subset hm) hlost

theorem getLast?_rows {program : List Line} (hframed : Sectioned.Framed program) {rows : List Row}
    (hlist : Sectioned.Accepted table use (controlSections program) rows sections) :
    ∀ r ∈ rows.getLast?, r.line.mnemonic = "END" := by
  obtain ⟨first, body, last, rest, rfl, -, hbody, hlast⟩ := hframed
  obtain ⟨done, cs, hcut, rfl⟩ := exists_last_sectionsFrom first rest hbody hlast
  intro r hr
  rw [hlist.rows_eq, controlSections, hcut] at hr
  obtain rfl : Row.mk (cs.length table) (Sectioned.closingLine cs.closer) cs.opener.label = r := by
    simpa [Sectioned.listedRows, List.getLast?_append, List.getLast?_cons] using hr
  show (Sectioned.closingLine cs.closer).mnemonic = "END"
  rw [Sectioned.closingLine, if_neg (by rw [hlast]; decide), hlast]

theorem make_moved (ht : table.Sized .sectioned) (hav : table.Avoids sectionedDirectives)
    {program : List Line} (hframed : Sectioned.Framed program) {rows : List Row}
    (hlist : Sectioned.Accepted table use (controlSections program) rows sections)
    (hsecs : ∀ cs ∈ controlSections program, Settled table use sections cs)
    {records : List ObjectRecord} {written : List Modification}
    (h : make dialect (.ofSections sections) table rows = .ok (.made records written)) (k : Int) :
    ((∀ m ∈ written, Text.hasDecimal (m.address + k) = true) ∧
      ∃ records', make dialect (.ofSections (sections.moved k)) table (rows.map (Row.moved k)) =
          .ok (.made records' (written.map (Modification.moved k))) ∧
        ∃ blocks blocks', records = blocks.flatten ∧ records' = blocks'.flatten ∧
          List.Forall₂ (BlockMoved k) blocks blocks') ∨
      (∃ m ∈ written, Text.hasDecimal (m.address + k) = false) ∧
        make dialect (.ofSections (sections.moved k)) table (rows.map (Row.moved k)) =
          .error .noDecimal := by
  have hrows := sectionsOf_moved (sizedRows_moved (k := k) (getLast?_rows hframed hlist))
  have hsections : sectionsOf (sizedRows rows) =
      (controlSections program).map fun cs => ⟨cs.opener.label, sizedBlock table cs⟩ := by
    rw [hlist.rows_eq, sizedRows_flatMap hlist.listed, sectionsOf_flatMap hlist.distinct]
  obtain ⟨e₁, he₁, hf, -, rfl, rfl⟩ := make_eq_made_iff.1 h
  rw [hsections] at he₁ hrows
  have hempty : (⟨[], [], [], []⟩ : Emission).BlocksFollow k ⟨[], [], [], []⟩ :=
    ⟨⟨[], [], rfl, rfl, .nil⟩, rfl, rfl, by simp⟩
  have hmoves := addSections_moved ht hav hsecs hrows he₁ hf hempty
  generalize hstep : addSections dialect (.ofSections (sections.moved k)) table ⟨[], [], [], []⟩
    (sectionsOf (sizedRows (rows.map (Row.moved k)))) = step at hmoves
  cases hmoves with
  | made hsim =>
    refine .inl ⟨hsim.told, _, make_eq_made_iff.2 ⟨_, hstep, hsim.found, ?_, rfl, hsim.written⟩,
      hsim.records⟩
    rw [hsim.written]
    intro m hm
    obtain ⟨m₀, hm₀, rfl⟩ := List.mem_map.1 hm
    exact hsim.told m₀ hm₀
  | untold hm hlost => exact .inr ⟨⟨_, hm, hlost⟩, by rw [make, hstep]⟩

end TwoPass.SectionedCode

/-- A sectioned program that two passes accept, with no operands at the directives that close its
sections, can be moved by any distance that leaves the addresses of its modifications short enough
for decimal forms: from the listing and the symbols with all addresses moved the second pass makes
the same records section by section, with moved addresses, and the operands that change are those of
the commands whose modification has no name.  By any other distance it cannot. -/
theorem made_moved (table : OpTable) (ht : table.Sized .sectioned)
    (hav : table.Avoids sectionedDirectives) (i : Int) (program : List Line)
    (hwritten : ∀ l ∈ program, l.mnemonic ≠ TwoPass.Sectioned.sectionEnd)
    (hclosed : ∀ l ∈ program, l.mnemonic = "END" ∨ l.mnemonic = "CSECT" → l.operands = [])
    (rows : List Row) (symbols : Symbols) (records : List ObjectRecord)
      (written : List Modification)
        (h : assembleTwice ⟨.sectioned, .twoPass⟩ table (.ofIndex i) program =
          .ok (.listed rows symbols, some (.ok (.made records written)))) (k : Int) :
    ((∀ m ∈ written, (m.address + k).natAbs < 10 ^ Text.decimalLimit) →
      ∃ records', makeCode ⟨.sectioned, .twoPass⟩ (.ofSymbols (symbols.moved k)) table
          (rows.map (Row.moved k)) = .ok (.made records' (written.map (Modification.moved k))) ∧
        ∃ blocks blocks', records = blocks.flatten ∧ records' = blocks'.flatten ∧
          List.Forall₂ (BlockMoved k) blocks blocks') ∧
      ((∃ m ∈ written, 10 ^ Text.decimalLimit ≤ (m.address + k).natAbs) →
        makeCode ⟨.sectioned, .twoPass⟩ (.ofSymbols (symbols.moved k)) table
          (rows.map (Row.moved k)) = .error .noDecimal) := by
  obtain ⟨hlist, hmake⟩ := assembleTwice_eq_made_iff.1 h
  obtain ⟨hframed, sections, rfl, haccepted, hdefined⟩ := TwoPass.Sectioned.of_list hlist
  have hsettled :
      ∀ cs ∈ controlSections program,
        TwoPass.SectionedCode.Settled table (.ofIndex i) sections cs := by
    intro cs hcs
    obtain ⟨ns, hns, hnames⟩ := haccepted.names hcs
    obtain ⟨hcloser, hbody⟩ := mem_of_mem_controlSections hcs
    have hlisted := haccepted.listed cs hcs
    refine ⟨hlisted, ⟨ns, hns, hnames, hlisted.sectionSymbols hnames (hdefined _ ns hns)⟩,
      fun p hp => ?_, ?_⟩
    · apply hwritten
      apply hbody
      exact line_mem_of_mem_rows hp
    · exact hclosed _ hcloser hlisted.closer.symm
  obtain ⟨htold, hmade⟩ | ⟨⟨m, hm, hlost⟩, hfails⟩ :=
    TwoPass.SectionedCode.make_moved ht hav hframed haccepted hsettled hmake k
  · refine ⟨fun _ => hmade, ?_⟩
    rintro ⟨m, hm, hlong⟩
    exact absurd (hasDecimal_iff.1 (htold m hm)) (Nat.not_lt.2 hlong)
  · refine ⟨fun hshort => ?_, fun _ => hfails⟩
    rw [hasDecimal_iff.2 (hshort m hm)] at hlost
    cases hlost

theorem Source.ne_sectionEnd_of_parse {d : Dialect} {text : String} {s : Source}
    (h : parse d text = .ok s) :
    ∀ l ∈ s.lines, l.mnemonic ≠ TwoPass.Sectioned.sectionEnd := by
  intro l hl hm
  obtain ⟨c, cs, hname, hc⟩ := mnemonic_of_parse h l hl
  have hchars : (String.ofList (c :: cs)).toList = ['[', 'E', 'S', 'E', 'C', 'T', ']'] := by
    rw [← hname, hm]
    rfl
  rw [String.toList_ofList] at hchars
  obtain rfl : c = '[' := List.head_eq_of_cons_eq hchars
  cases hc

/-- Two sections; the first one exports a name, imports one, and refers to both and over a distance
to a third. -/
def movedText : String :=
  "MAIN: START\n EXTDEF GO\n EXTREF OUT\nA: JMP OUT\n JMP GO\nGO: LDR @A\nPART: CSECT\nB: JMP B\n BYTE c'xy'\n END"

def movedLines : List Line :=
  [⟨some "MAIN", ⟨"START", []⟩⟩, ⟨none, ⟨"EXTDEF", [.direct "GO"]⟩⟩,
    ⟨none, ⟨"EXTREF", [.direct "OUT"]⟩⟩, ⟨some "A", ⟨"JMP", [.direct "OUT"]⟩⟩,
    ⟨none, ⟨"JMP", [.direct "GO"]⟩⟩, ⟨some "GO", ⟨"LDR", [.relative "A"]⟩⟩,
    ⟨some "PART", ⟨"CSECT", []⟩⟩, ⟨some "B", ⟨"JMP", [.direct "B"]⟩⟩,
    ⟨none, ⟨"BYTE", [.chars "xy"]⟩⟩, ⟨none, ⟨"END", []⟩⟩]

/-- The records of the two sections when they begin at an address. -/
def movedRecords (k : Int) : List ObjectRecord :=
  [.header (some "MAIN") k (some 11), .definition "GO" (Text.address (8 + k)), .reference "OUT",
    .code k 4 5 "000000", .code (4 + k) 4 5 (Text.address (8 + k)), .code (8 + k) 3 10 "FFF5",
    .modification k (some "OUT"), .modification (4 + k) none, .finish k,
    .header (some "PART") k (some 6), .code k 4 5 (Text.address k), .data (4 + k) 2 "7879",
    .modification k none, .finish k]

/-- The modifications of the two sections when they begin at an address. -/
def movedModifications (k : Int) : List Modification :=
  [⟨k, "OUT", some "MAIN"⟩, ⟨4 + k, "GO", some "MAIN"⟩, ⟨k, "B", some "PART"⟩]

theorem movedText_moved :
    jumpAndLoad.Sized .sectioned ∧ jumpAndLoad.Avoids sectionedDirectives ∧
      Source.parse ⟨.sectioned, .twoPass⟩ movedText = .ok ⟨movedLines, []⟩ ∧
      ∃ rows symbols, assembleTwice ⟨.sectioned, .twoPass⟩ jumpAndLoad (.ofIndex 2) movedLines =
          .ok (.listed rows symbols, some (.ok (.made (movedRecords 0) (movedModifications 0)))) ∧
        (∃ records', makeCode ⟨.sectioned, .twoPass⟩ (.ofSymbols (symbols.moved 0x10)) jumpAndLoad
            (rows.map (Row.moved 0x10)) = .ok (.made records' (movedModifications 0x10)) ∧
          ∃ blocks blocks', movedRecords 0 = blocks.flatten ∧ records' = blocks'.flatten ∧
            List.Forall₂ (BlockMoved 0x10) blocks blocks') ∧
        makeCode ⟨.sectioned, .twoPass⟩ (.ofSymbols (symbols.moved 0x10)) jumpAndLoad
            (rows.map (Row.moved 0x10)) =
              .ok (.made (movedRecords 0x10) (movedModifications 0x10)) ∧
        makeCode ⟨.sectioned, .twoPass⟩ (.ofSymbols (symbols.moved (10 ^ 4300))) jumpAndLoad
            (rows.map (Row.moved (10 ^ 4300))) = .error .noDecimal := by
  have ht : jumpAndLoad.Sized .sectioned := OpTable.sized_of_forall (by decide +kernel)
  have hav : jumpAndLoad.Avoids sectionedDirectives := by unfold OpTable.Avoids; decide +kernel
  have hparse : Source.parse ⟨.sectioned, .twoPass⟩ movedText = .ok ⟨movedLines, []⟩ := by
    decide +kernel
  obtain ⟨rows, symbols, h, hmoved⟩ : ∃ rows symbols,
      assembleTwice ⟨.sectioned, .twoPass⟩ jumpAndLoad (.ofIndex 2) movedLines =
        .ok (.listed rows symbols, some (.ok (.made (movedRecords 0) (movedModifications 0)))) ∧
      makeCode ⟨.sectioned, .twoPass⟩ (.ofSymbols (symbols.moved 0x10)) jumpAndLoad
        (rows.map (Row.moved 0x10)) = .ok (.made (movedRecords 0x10) (movedModifications 0x10)) :=
        ⟨_, _, rfl, rfl⟩
  have hmade :=
    made_moved _ ht hav 2 movedLines (Source.ne_sectionEnd_of_parse hparse)
      (by decide +kernel) _ _ _ _ h
  exact ⟨ht, hav, hparse, rows, symbols, h, (hmade 0x10).1 (by decide +kernel), hmoved,
    (hmade (10 ^ 4300)).2 (by decide +kernel)⟩

end Assembler
