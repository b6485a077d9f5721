import Assembler.Proofs.BackPatching
import Assembler.Proofs.Relocation
import Assembler.Proofs.SectionedAcceptance

/-! # The range of addresses in sectioned programs

An address is looked at where a command or a reservation ends and where the last section ends, but
not where data end.  So no address is negative, and what lies beyond memory lies there because of
data in a section that is not the last one. `addresses_inMemory_iff` says for both ways of
assembling which programs have all their addresses in memory. -/

namespace Assembler
set_option autoImplicit false

def Line.IsData (l : Line) : Prop := l.mnemonic = "WORD" ∨ l.mnemonic = "BYTE"

/-- The line is a command or reserves space. -/
def Line.IsGuarded (table : OpTable) (l : Line) : Prop :=
  (l.operation? table).isSome = true ∨ l.mnemonic = "RESW" ∨ l.mnemonic = "RESB"

/-- What is made sure of in a section: its lines stand between zero and its end, and commands and
reservations end in memory. -/
structure ControlSection.Guarded (table : OpTable) (sec : ControlSection) : Prop where
  bounds : ∀ pre post, sec.body = pre ++ post →
    0 ≤ spaceOf .sectioned table pre ∧
    spaceOf .sectioned table pre ≤ spaceOf .sectioned table sec.body
  ends : ∀ pre l post, sec.body = pre ++ l :: post → l.IsGuarded table →
    spaceOf .sectioned table (pre ++ [l]) ≤ lastAddress

/-- What is made sure of in a program: its sections are guarded, and the last one ends in memory. -/
structure RangeGuarded (table : OpTable) (program : List Line) : Prop where
  sections : ∀ sec ∈ controlSections program, sec.Guarded table
  last : ∀ sec ∈ (controlSections program).getLast?, spaceOf .sectioned table sec.body ≤ lastAddress

/-- All data of a section begin in memory. -/
def ControlSection.DataBeginInMemory (table : OpTable) (sec : ControlSection) : Prop :=
  ∀ pre l post, sec.body = pre ++ l :: post → l.IsData → spaceOf .sectioned table pre ≤ lastAddress

/-- The address that a record gives lies in memory. -/
def ObjectRecord.InMemory : ObjectRecord → Prop
  | .header _ _ _ | .reference _ => True
  | .definition _ digits => ∃ b, Assembler.InMemory b ∧ digits = Text.address b
  | .code a _ _ _ | .data a _ _ | .space a _ | .modification a _ | .finish a => Assembler.InMemory a

/-! ## Lines that fit -/

theorem Storage.inMemory_of_reserved {kind : Storage}
    (hkind : kind = .reservedWords ∨ kind = .reservedBytes) {a : Int} {ops : List Operand}
    {al : Allotment} (h : kind.allot a ops = .ok al) (hp : al.problems = []) :
    InMemory (a + kind.extent ops) := by
  rw [← (Storage.allot_eq h).1]
  unfold Storage.allot at h
  split at h <;> cases h <;> first
    | exact (rangeProblems_eq_nil_iff _ _).1 (List.append_eq_nil_iff.1 hp).2
    | simp at hkind

section

variable {table : OpTable} {use : NameUse} {a : Int} {l : Line} {sec : ControlSection}

theorem Line.isData_or_isGuarded {kind : Storage}
    (h : Statement.ofMnemonic .sectioned table l.mnemonic = .storage kind) :
    l.IsData ∨ l.IsGuarded table := by
  have hm : l.mnemonic = kind.mnemonic := Statement.stands_of_eq h
  unfold Line.IsData Line.IsGuarded
  rw [hm]
  cases kind <;> simp [Storage.mnemonic]

theorem Line.LinkFits.inMemory_of_guarded (ht : table.Sized .sectioned) (h : l.LinkFits table use a)
    (hg : l.IsGuarded table) : InMemory (a + l.extent .sectioned table) := by
  have hop : ∀ op, l.operation? table = some op ↔
      Statement.ofMnemonic .sectioned table l.mnemonic = .command op :=
    fun op => Line.operation?_eq_some_iff
  rw [Line.IsGuarded, Option.isSome_iff_exists] at hg
  simp only [hop] at hg
  cases h with
  | inl h =>
    cases h.cases with
    | inl h =>
      obtain ⟨kind, al, hk, hal, hp⟩ := h
      have hm : l.mnemonic = kind.mnemonic := Statement.stands_of_eq hk
      rw [extent_of_storage hk]
      refine Storage.inMemory_of_reserved ?_ hal hp
      rw [hk, hm] at hg
      cases kind <;> simp [Storage.mnemonic] at hg ⊢
    | inr h =>
      obtain ⟨op, hop, hc, -⟩ := h
      rw [extent_of_command hop]
      exact ((commandProblems_eq_nil_iff (ht.mem_commandSizes hop) _ _ _).1 hc).2
  | inr h =>
    obtain ⟨hm | hm, -⟩ := h
    · rw [(Statement.ofMnemonic_eq_exportName_iff table _).2 hm, hm] at hg
      simp at hg
    · rw [(Statement.ofMnemonic_eq_importName_iff table _).2 hm, hm] at hg
      simp at hg

/-! ## Sections whose lines fit -/

section

variable (ht : table.Sized .sectioned)
  (hfits : ∀ p ∈ sec.rows table, p.1.line.LinkFits table use p.1.address)
include hfits

theorem extentOf_eq_spaceOf_of_fits {pre post : List Line} (hcut : sec.body = pre ++ post) :
    extentOf .sectioned table pre = spaceOf .sectioned table pre := by
  apply extentOf_eq_spaceOf
  intro l hl
  have hmem : l ∈ sec.body := by rw [hcut]; exact List.mem_append_left _ hl
  rw [← placed_map_line .sectioned table sec.opener.label 0 sec.body, List.mem_map] at hmem
  obtain ⟨p, hp, rfl⟩ := hmem
  exact (hfits p hp).extent_eq_space

include ht

theorem bounds_of_fits {pre post : List Line} (hcut : sec.body = pre ++ post) :
    0 ≤ extentOf .sectioned table pre ∧ extentOf .sectioned table pre ≤ sec.length table := by
  have hnonneg : ∀ p ∈ placed .sectioned table sec.opener.label 0 sec.body, 0 ≤ p.2 := by
    intro p hp
    rw [snd_of_mem_placed _ _ _ hp]
    exact (hfits p hp).extent_nonneg ht
  rw [hcut, placed_append] at hnonneg
  obtain ⟨hpre, -⟩ := bounds_of_nonneg fun p hp => hnonneg p (List.mem_append_left _ hp)
  obtain ⟨hpost, -⟩ := bounds_of_nonneg fun p hp => hnonneg p (List.mem_append_right _ hp)
  rw [ControlSection.length, hcut, extentOf_append]
  omega

theorem guarded_of_fits : sec.Guarded table := by
  have hspace : ∀ {pre post}, sec.body = pre ++ post →
      extentOf .sectioned table pre = spaceOf .sectioned table pre :=
    fun hcut => extentOf_eq_spaceOf_of_fits hfits hcut
  refine ⟨fun pre post hcut => ?_, fun pre l post hcut hg => ?_⟩
  · rw [← hspace hcut, ← hspace (List.append_nil sec.body).symm]
    exact bounds_of_fits ht hfits hcut
  · have hrow :
        (⟨0 + extentOf .sectioned table pre, l, sec.opener.label⟩, l.extent .sectioned table) ∈
          sec.rows table :=
      (mem_placed_iff .sectioned table _).2 ⟨pre, l, post, hcut, rfl⟩
    have hend := ((hfits _ hrow).inMemory_of_guarded ht hg).2
    rw [Int.zero_add] at hend
    rw [← hspace (by rw [hcut, List.append_assoc, List.singleton_append]), extentOf_append,
      extentOf, extentOf, Int.add_zero]
    exact hend

theorem inMemory_of_guarded {p : Row × Int} (hp : p ∈ sec.rows table)
    (hg : p.1.line.IsGuarded table) :
    InMemory p.1.address := by
  have hend := (hfits p hp).inMemory_of_guarded ht hg
  have hextent := (hfits p hp).extent_nonneg ht
  obtain ⟨pre, l, post, hcut, rfl⟩ := (mem_placed_iff .sectioned table _).1 hp
  have hbegin := (bounds_of_fits ht hfits hcut).1
  simp only [InMemory] at hend hextent ⊢
  omega

end

theorem ControlSection.exists_front_of_lines {pre post : List Line}
    (hcut : sec.lines = pre ++ l :: post) :
    ∃ rest, sec.body = pre ++ rest := by
  unfold ControlSection.lines at hcut
  obtain ⟨front, rfl, htail⟩ | ⟨rest, hbody, -⟩ := List.append_eq_append_iff.1 hcut
  · have hfront : front = [] := by
      split at htail
      · exact (List.append_eq_singleton_iff.1 htail.symm).elim (·.1) fun h => absurd h.2 (by simp)
      · simp at htail
    exact ⟨[], by rw [hfront, List.append_nil, List.append_nil]⟩
  · exact ⟨rest, hbody⟩

/-! ## What is listed -/

namespace TwoPass.Sectioned

theorem Listed.inMemory_rows_iff (ht : table.Sized .sectioned) (h : Listed table use sec) :
    (∀ r ∈ listedRows table sec, InMemory r.address) ↔
      spaceOf .sectioned table sec.body ≤ lastAddress := by
  rw [← extentOf_eq_spaceOf_of_fits h.fits (List.append_nil sec.body).symm]
  have hclosing :
      (⟨sec.length table, closingLine sec.closer, sec.opener.label⟩ : Row) ∈
        listedRows table sec := by
    simp [listedRows]
  constructor
  · intro hall
    exact (hall _ hclosing).2
  · intro hend r hr
    have hzero : InMemory 0 := by decide
    rw [listedRows, List.mem_cons, List.mem_append, List.mem_map, List.mem_singleton] at hr
    have hlength := (bounds_of_fits ht h.fits (List.append_nil sec.body).symm).1
    obtain rfl | ⟨p, hp, rfl⟩ | rfl := hr
    · exact hzero
    · obtain ⟨pre, l, post, hcut, rfl⟩ := (mem_placed_iff .sectioned table _).1 hp
      have hbounds := bounds_of_fits ht h.fits hcut
      rw [ControlSection.length] at hbounds
      simp only [InMemory, Int.zero_add]
      omega
    · exact ⟨hlength, hend⟩

theorem Listed.nonneg_of_carriesAt (ht : table.Sized .sectioned) (h : Listed table use sec)
    {x : String} {b : Int} (hx : sec.CarriesAt table x b) : 0 ≤ b := by
  obtain ⟨pre, l, post, hcut, -, rfl⟩ := hx
  obtain ⟨rest, hfront⟩ := ControlSection.exists_front_of_lines hcut
  exact ((guarded_of_fits ht h.fits).bounds pre rest hfront).1

theorem Accepted.inMemory_names_iff (ht : table.Sized .sectioned) {secs : List ControlSection}
    {rows : List Row} {sections : Sections (Option Int)}
    (h : Accepted table use secs rows sections) :
    (∀ k names, sections.get? k = some names → ∀ x b, NameTable.address? names.get? x = some b →
      InMemory b) ↔
      ∀ sec ∈ secs, ∀ x b, sec.CarriesAt table x b → b ≤ lastAddress := by
  constructor
  · intro hall sec hsec x b hx
    obtain ⟨names, hnames, hget⟩ := h.names hsec
    refine (hall _ names hnames x b ?_).2
    rw [hget]
    exact (h.listed sec hsec).address?_eq_some_iff.2 hx
  · intro hall k names hnames x b hx
    have htable := h.tables k
    rw [hnames, Option.map_some] at htable
    obtain ⟨sec, hsec, heq⟩ := List.mem_map.1 (mem_of_tableOf htable.symm)
    have hget : sec.names .twoPass table = names.get? := congrArg Prod.snd heq
    rw [← hget, (h.listed sec hsec).address?_eq_some_iff] at hx
    exact ⟨(h.listed sec hsec).nonneg_of_carriesAt ht hx, hall sec hsec x b hx⟩

end TwoPass.Sectioned

/-! ## What is put down -/

namespace OnePass.Sectioned

theorem inMemory_definition (h : SectionFits table use sec)
    (hlabels : ∀ r ∈ sec.nameRows table, r.line.LabelFits r.address) {c : RowContext}
    (hc : c ∈ contextsOf table sec)
    (hst : Statement.ofMnemonic .sectioned table c.line.mnemonic = .exportName) :
    (c.record table).InMemory := by
  obtain ⟨-, x, hops⟩ := (h.rows c hc).fits.operands_of_export hst
  have hx : c.line.Exports x :=
    ⟨(Statement.ofMnemonic_eq_exportName_iff _ _).1 hst, onlyName?_eq_some_iff.2 hops⟩
  obtain ⟨e, he⟩ := Option.ne_none_iff_exists'.1 fun hnone => h.settled c hc x ⟨.inl hx, hnone⟩
  obtain ⟨-, pre, post, hcut, heq⟩ := exists_of_mem_contexts hc
  have hlater : c.later = post := by rw [heq]
  have hfirst := he
  rw [RowContext.entryFor?, if_pos hx, hlater] at hfirst
  obtain ⟨mid, q, rest, rfl, -, hq, rfl⟩ := exists_of_firstEntry hfirst
  have hmem : q ∈ sec.nameRows table := by
    have hrows : sec.nameRows table = _ := hcut
    rw [hrows]
    simp
  have haddress : InMemory q.address := hlabels q hmem (by rw [hq]; rfl)
  obtain ⟨b, hb, hdirect⟩ : ∃ b, InMemory b ∧ (c.reading table).direct x = some b := by
    have hread : (c.reading table).direct x = _ := congrArg (Option.bind · Entry.direct?) he
    rw [hread, Option.bind_some, Entry.direct?]
    split
    · exact ⟨0, by decide, rfl⟩
    · exact ⟨q.address, haddress, rfl⟩
  have hrecord : c.record table = .definition x (Text.address b) := by
    simp [RowContext.record, linkedRecord, linkedField, hst, hops, operandDigits?_direct, hdirect,
      onlyName?_eq_some_iff.2]
  rw [hrecord]
  exact ⟨b, hb, rfl⟩

theorem inMemory_record_iff (ht : table.Sized .sectioned) (h : SectionFits table use sec)
    (hlabels : ∀ r ∈ sec.nameRows table, r.line.LabelFits r.address) {c : RowContext}
    (hc : c ∈ contextsOf table sec) :
    (c.record table).InMemory ↔ (c.line.IsData → InMemory c.row.1.address) := by
  have hmem : c.row ∈ sec.rows table := (exists_of_mem_contexts hc).1
  have hstart := fun hg => inMemory_of_guarded ht h.linkFits hmem hg
  cases (h.rows c hc).fits with
  | inl hfit =>
    cases hfit.cases with
    | inl hstorage =>
      obtain ⟨kind, al, hk, -⟩ := hstorage
      have hrecord : (c.record table).InMemory ↔ InMemory c.row.1.address := by
        simp only [RowContext.record, linkedRecord, hk, recordOf, storageRecord]
        cases kind.digits? c.line.operands <;> exact Iff.rfl
      rw [hrecord]
      cases Line.isData_or_isGuarded hk with
      | inl hdata => exact ⟨fun ha _ => ha, fun ha => ha hdata⟩
      | inr hguarded => exact ⟨fun ha _ => ha, fun _ => hstart hguarded⟩
    | inr hcommand =>
      obtain ⟨op, hop, -⟩ := hcommand
      have hrecord : (c.record table).InMemory ↔ InMemory c.row.1.address := by
        simp only [RowContext.record, linkedRecord, hop, recordOf]
        exact Iff.rfl
      rw [hrecord]
      exact ⟨fun ha _ => ha,
        fun _ => hstart (.inl (by rw [Line.operation?_eq_some_iff.2 hop]; rfl))⟩
  | inr hlink =>
    obtain ⟨hm, -⟩ := hlink
    have hdata : ¬ c.line.IsData := by
      unfold Line.IsData
      cases hm with
      | inl hm => simp [hm]
      | inr hm => simp [hm]
    refine ⟨fun _ hd => absurd hd hdata, fun _ => ?_⟩
    cases hm with
    | inl hm =>
      exact inMemory_definition h hlabels hc ((Statement.ofMnemonic_eq_exportName_iff _ _).2 hm)
    | inr hm =>
      simp only [RowContext.record, linkedRecord,
        (Statement.ofMnemonic_eq_importName_iff table _).2 hm]
      trivial

theorem exportName_of_definition {p : Row × Int} {field x digits : String}
    (h : linkedRecord table p field = .definition x digits) :
    Statement.ofMnemonic .sectioned table p.1.line.mnemonic = .exportName := by
  unfold linkedRecord at h
  split at h
  · assumption
  · cases h
  · unfold recordOf storageRecord at h
    split at h
    · cases h
    · split at h <;> cases h
    · cases h

theorem inMemory_of_modified (ht : table.Sized .sectioned) (h : SectionFits table use sec) :
    ∀ m ∈ (sec.rows table).flatMap (modifiedNames table), InMemory m.1 := by
  intro m hm
  obtain ⟨p, hp, hm⟩ := List.mem_flatMap.1 hm
  unfold modifiedNames at hm
  split at hm
  · next op hop =>
    have hstart :=
      inMemory_of_guarded ht h.linkFits hp (.inl (by rw [Line.operation?_eq_some_iff.2 hop]; rfl))
    split at hm
    · obtain ⟨o, -, rfl⟩ := List.mem_map.1 hm
      exact hstart
    · cases hm
  · cases hm

theorem mem_recordsOf_iff {o : ObjectRecord} :
    o ∈ recordsOf table sec ↔ o = .header sec.opener.label 0 (some (sec.length table)) ∨
    (∃ c ∈ contextsOf table sec, c.record table = o) ∨
    (∃ m ∈ (sec.rows table).flatMap (modifiedNames table),
      modificationRecord (sec.names .onePass table) m = o) ∨
    o = .finish sec.entry := by
  simp only [recordsOf, List.mem_cons, List.mem_append, List.mem_map, List.not_mem_nil, or_false,
    or_assoc]

theorem SectionFrame.entry_nonneg (ht : table.Sized .sectioned) (h : SectionFits table use sec)
    (hframe : SectionFrame table sec) : 0 ≤ sec.entry := by
  obtain ⟨pre, ⟨post, hcut⟩, hentry⟩ := hframe.entry
  rw [← hentry]
  exact (bounds_of_fits ht h.linkFits hcut.symm).1

theorem inMemory_recordsOf_iff (ht : table.Sized .sectioned) (h : SectionFits table use sec)
    (hframe : SectionFrame table sec) : (∀ o ∈ recordsOf table sec, o.InMemory) ↔
      sec.DataBeginInMemory table ∧ sec.entry ≤ lastAddress := by
  constructor
  · intro hall
    refine ⟨fun pre l post hcut hdata => ?_,
      (hall (.finish sec.entry) (mem_recordsOf_iff.2 (by simp))).2⟩
    have hrow :
        (⟨0 + extentOf .sectioned table pre, l, sec.opener.label⟩, l.extent .sectioned table) ∈
          sec.rows table :=
      (mem_placed_iff .sectioned table _).2 ⟨pre, l, post, hcut, rfl⟩
    rw [← contexts_map_row table (fun _ => none) (sec.rows table) (sec.endRows table), List.mem_map]
      at hrow
    obtain ⟨c, hc, hrow⟩ := hrow
    have hrecord :=
      (inMemory_record_iff ht h hframe.labels hc).1
        (hall _ (mem_recordsOf_iff.2 (.inr (.inl ⟨c, hc, rfl⟩))))
    rw [RowContext.line, hrow, Int.zero_add] at hrecord
    rw [← extentOf_eq_spaceOf_of_fits h.linkFits hcut]
    exact (hrecord hdata).2
  · intro ⟨hbegin, hentry⟩ o ho
    obtain rfl | ⟨c, hc, rfl⟩ | ⟨m, hm, rfl⟩ | rfl := mem_recordsOf_iff.1 ho
    · trivial
    · refine (inMemory_record_iff ht h hframe.labels hc).2 fun hdata => ?_
      obtain ⟨pre, l, post, hcut, hrow⟩ :=
        (mem_placed_iff .sectioned table _).1 (exists_of_mem_contexts hc).1
      rw [RowContext.line, hrow] at hdata
      have hle := hbegin pre l post hcut hdata
      rw [← extentOf_eq_spaceOf_of_fits h.linkFits hcut] at hle
      have hnonneg := (bounds_of_fits ht h.linkFits hcut).1
      rw [hrow]
      simp only [InMemory, Int.zero_add]
      exact ⟨hnonneg, hle⟩
    · exact inMemory_of_modified ht h m hm
    · exact ⟨hframe.entry_nonneg ht h, hentry⟩

theorem inMemory_of_definition (h : SectionFits table use sec) (hframe : SectionFrame table sec)
    {x digits : String} (ho : .definition x digits ∈ recordsOf table sec) :
    ∃ b, InMemory b ∧ digits = Text.address b := by
  obtain ho | ⟨c, hc, ho⟩ | ⟨m, -, ho⟩ | ho := mem_recordsOf_iff.1 ho
  · cases ho
  · have hmem := inMemory_definition h hframe.labels hc (exportName_of_definition ho)
    rw [ho] at hmem
    exact hmem
  · cases ho
  · cases ho

theorem inMemory_of_modification (ht : table.Sized .sectioned) (h : SectionFits table use sec)
    {name : Option String} (ho : .modification a name ∈ recordsOf table sec) : InMemory a := by
  obtain ho | ⟨c, -, ho⟩ | ⟨m, hm, ho⟩ | ho := mem_recordsOf_iff.1 ho
  · cases ho
  · have hline : (c.record table).isOfLine = true := isOfLine_linkedRecord table c.row _
    rw [ho] at hline
    cases hline
  · cases ho
    exact inMemory_of_modified ht h m hm
  · cases ho

end OnePass.Sectioned

end

/-! ## Programs -/

theorem rangeGuarded_of_fits {table : OpTable} {use : NameUse} {program : List Line}
    (ht : table.Sized .sectioned)
    (hfits : ∀ sec ∈ controlSections program, ∀ p ∈ sec.rows table,
      p.1.line.LinkFits table use p.1.address) (hend : ∀ sec ∈ (controlSections program).getLast?,
        InMemory (sec.length table)) : RangeGuarded table program := by
  refine ⟨fun sec hsec => guarded_of_fits ht (hfits sec hsec), fun sec hsec => ?_⟩
  rw [← extentOf_eq_spaceOf_of_fits (hfits sec (List.mem_of_mem_getLast? hsec))
    (List.append_nil sec.body).symm]
  exact (hend sec hsec).2

/-- The addresses of a sectioned program.  Every way of assembling that accepts it makes sure of
`RangeGuarded`.  Listed rows stand in memory if and only if every section ends there, and listed
names if and only if no line carries one beyond it.  The records of one pass give addresses in
memory if and only if in every section data begin there and the entry lies there; those of exported
names and modifications always do. -/
theorem addresses_inMemory_iff (table : OpTable) (ht : table.Sized .sectioned) (i : Int)
    (program : List Line) :
    (∀ rows symbols, listProgram ⟨.sectioned, .twoPass⟩ table (.ofIndex i) program =
      .ok (.listed rows symbols) →
      RangeGuarded table program ∧ ∃ sections, symbols = .sectioned sections ∧
        ((∀ r ∈ rows, InMemory r.address) ↔
          ∀ sec ∈ controlSections program, spaceOf .sectioned table sec.body ≤ lastAddress) ∧
        ((∀ k names, sections.get? k = some names →
          ∀ x b, NameTable.address? names.get? x = some b → InMemory b) ↔
          ∀ sec ∈ controlSections program, ∀ x b, sec.CarriesAt table x b → b ≤ lastAddress)) ∧
    (∀ v, (traceProgram .sectioned table (.ofIndex i) program).fault = none →
      (traceProgram .sectioned table (.ofIndex i) program).snapshots.getLast? = some v →
      v.found = [] →
      RangeGuarded table program ∧ ∃ rs, v.records = some rs ∧
        ((∀ o ∈ rs, o.InMemory) ↔
          ∀ sec ∈ controlSections program, sec.DataBeginInMemory table ∧ sec.entry ≤ lastAddress) ∧
        (∀ x digits, .definition x digits ∈ rs → ∃ b, InMemory b ∧ digits = Text.address b) ∧
        ∀ a name, .modification a name ∈ rs → InMemory a) := by
  refine ⟨fun rows symbols h => ?_, fun v hfault hlast hfound => ?_⟩
  · obtain ⟨-, sections, rfl, haccepted, -, hend⟩ := TwoPass.Sectioned.of_list_inMemory h
    have hlisted := haccepted.listed
    refine ⟨rangeGuarded_of_fits ht (fun sec hsec => (hlisted sec hsec).fits) hend, sections,
      rfl, ?_, haccepted.inMemory_names_iff ht⟩
    rw [haccepted.rows_eq]
    simp only [List.mem_flatMap, forall_exists_index, and_imp]
    constructor
    · intro hall sec hsec
      exact ((hlisted sec hsec).inMemory_rows_iff ht).1 fun r hr => hall r sec hsec hr
    · intro hall r sec hsec hr
      exact ((hlisted sec hsec).inMemory_rows_iff ht).2 (hall sec hsec) r hr
  · obtain ⟨rs, hrs⟩ := OnePass.Sectioned.records_of_found hfault hlast hfound
    obtain ⟨rfl, -⟩ := OnePass.Sectioned.of_trace ht hfault hlast hrs
    have hprogram := (OnePass.Sectioned.accepted_iff ht program).1 ⟨v, hfault, hlast, hfound⟩
    have hfits := hprogram.fits
    have hframes := hprogram.frames
    refine ⟨rangeGuarded_of_fits ht (fun sec hsec => (hfits sec hsec).linkFits) hprogram.ends, _,
      hrs, ?_, ?_, ?_⟩
    · simp only [List.mem_flatMap, forall_exists_index, and_imp]
      constructor
      · intro hall sec hsec
        exact (OnePass.Sectioned.inMemory_recordsOf_iff ht (hfits sec hsec) (hframes sec hsec)).1
          fun o ho => hall o sec hsec ho
      · intro hall o sec hsec ho
        exact (OnePass.Sectioned.inMemory_recordsOf_iff ht (hfits sec hsec) (hframes sec hsec)).2
          (hall sec hsec) o ho
    · intro x digits ho
      obtain ⟨sec, hsec, ho⟩ := List.mem_flatMap.1 ho
      exact OnePass.Sectioned.inMemory_of_definition (hfits sec hsec) (hframes sec hsec) ho
    · intro a name ho
      obtain ⟨sec, hsec, ho⟩ := List.mem_flatMap.1 ho
      exact OnePass.Sectioned.inMemory_of_modification ht (hfits sec hsec) ho

/-- A section that is filled up and gets two bytes more, the last of which may have a label, and an
empty section. -/
def overfull (label : Option String) : List Line :=
  [⟨some "P", ⟨"START", []⟩⟩, ⟨none, ⟨"RESB", [.number 0xFFFFFF]⟩⟩, ⟨none, ⟨"BYTE", [.number 1]⟩⟩,
    ⟨label, ⟨"BYTE", [.number 1]⟩⟩, ⟨some "Q", ⟨"CSECT", [.number 0x1000001]⟩⟩, ⟨none, ⟨"END", []⟩⟩]

/-- It is accepted, with listed rows, names and records beyond memory. -/
theorem overfull_beyond_memory :
    (OpTable.ofTriples []).Sized .sectioned ∧
      (∃ rows sections, listProgram ⟨.sectioned, .twoPass⟩ (.ofTriples []) (.ofIndex 2)
          (overfull (some "X")) = .ok (.listed rows (.sectioned sections)) ∧
          (¬ ∀ r ∈ rows, InMemory r.address) ∧
        ¬ ∀ k names, sections.get? k = some names →
        ∀ x b, NameTable.address? names.get? x = some b → InMemory b) ∧
      ∃ v rs, (traceProgram .sectioned (.ofTriples []) (.ofIndex 2) (overfull none)).fault = none ∧
        (traceProgram .sectioned (.ofTriples []) (.ofIndex 2) (overfull none)).snapshots.getLast? =
          some v ∧ v.found = [] ∧
        v.records = some rs ∧ ¬ ∀ o ∈ rs, o.InMemory := by
  have ht : (OpTable.ofTriples []).Sized .sectioned := OpTable.sized_of_forall (by decide +kernel)
  have hsections : ∀ label, controlSections (overfull label) =
      [⟨⟨some "P", ⟨"START", []⟩⟩, ((overfull label).drop 1).take 3,
        ⟨some "Q", ⟨"CSECT", [.number 0x1000001]⟩⟩⟩,
        ⟨⟨some "Q", ⟨"CSECT", [.number 0x1000001]⟩⟩, [], ⟨none, ⟨"END", []⟩⟩⟩] := fun _ => rfl
  refine ⟨ht, ?_, ?_⟩
  · obtain ⟨rows, symbols, h⟩ :
        ∃ rows symbols, listProgram ⟨.sectioned, .twoPass⟩ (.ofTriples []) (.ofIndex 2)
          (overfull (some "X")) = .ok (.listed rows symbols) := ⟨_, _, rfl⟩
    obtain ⟨-, sections, rfl, hrows, hnames⟩ :=
      (addresses_inMemory_iff _ ht 2 (overfull (some "X"))).1 rows symbols h
    refine ⟨rows, sections, h, fun hall => ?_, fun hall => ?_⟩
    · have hspace := hrows.1 hall _ (by rw [hsections]; exact List.mem_cons_self)
      exact absurd hspace (by decide +kernel)
    · have hcarried := hnames.1 hall _ (by rw [hsections]; exact List.mem_cons_self) "X" 0x1000000
        ⟨((overfull (some "X")).drop 1).take 2, _, [], rfl, rfl, by decide +kernel⟩
      exact absurd hcarried (by decide)
  · obtain ⟨v, hfault, hlast, hfound⟩ :
        ∃ v, (traceProgram .sectioned (.ofTriples []) (.ofIndex 2) (overfull none)).fault = none ∧
          (traceProgram .sectioned (.ofTriples []) (.ofIndex 2)
            (overfull none)).snapshots.getLast? = some v ∧
          v.found = [] := ⟨_, rfl, rfl, rfl⟩
    obtain ⟨-, rs, hrs, hrecords, -⟩ :=
      (addresses_inMemory_iff _ ht 2 (overfull none)).2 v hfault hlast hfound
    refine ⟨v, rs, hfault, hlast, hfound, hrs, fun hall => ?_⟩
    have hentry := (hrecords.1 hall _ (by rw [hsections]; exact List.mem_cons_self)).2
    exact absurd hentry (by decide +kernel)

end Assembler
