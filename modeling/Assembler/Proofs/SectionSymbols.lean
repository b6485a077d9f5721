import Assembler.Assembly
import Assembler.Proofs.SectionedListing

/-! # The symbols of a sectioned program

The first of two passes gives every control section a table of its own, under the label of the
directive that opens it. `SectionSymbols` says what the table of a section holds in terms of the
lines of that section alone: which names it knows, where they stand and how they are linked
(`listed_sectionSymbols`). -/

namespace Assembler
set_option autoImplicit false

/-- The lines of a section besides the directive that opens it: its body, and the end directive if
that closes it. -/
def ControlSection.lines (sec : ControlSection) : List Line :=
  sec.body ++ if sec.closer.mnemonic = "END" then [sec.closer] else []

/-- A line of the section carries a name, at an address that is the space of the lines before it. -/
def ControlSection.CarriesAt (table : OpTable) (sec : ControlSection) (x : String) (a : Int) :
    Prop :=
  ∃ pre l post, sec.lines = pre ++ l :: post ∧ l.name? = some x ∧ a = spaceOf .sectioned table pre

/-- What the table of a section says of the names in the lines of the section. -/
structure SectionSymbols (table : OpTable) (sec : ControlSection)
    (names : SectionNames (Option Int)) : Prop where
  /-- The table knows the names that some line carries, exports or imports. -/
  known : ∀ x, (names.get? x).isSome = true ↔ ∃ l ∈ sec.lines, l.name? = some x ∨ l.Exports x ∨
    l.Imports x
  /-- A name has the address where a line carries it; a name that no line carries has none. -/
  address : ∀ x a, NameTable.address? names.get? x = some a ↔ sec.CarriesAt table x a
  exported : ∀ x, NameTable.linkage? names.get? x = some .exported ↔ ∃ l ∈ sec.lines, l.Exports x
  imported : ∀ x, NameTable.linkage? names.get? x = some .imported ↔ ∃ l ∈ sec.lines, l.Imports x
  /-- No two lines carry one name. -/
  carried_once : sec.lines.Pairwise fun l l' => ∀ x, l.name? = some x → l'.name? ≠ some x
  /-- No two lines declare one name. -/
  declared_once : sec.lines.Pairwise fun l l' => ∀ x, l.Declares x → ¬ l'.Declares x
  exported_carried : ∀ x, (∃ l ∈ sec.lines, l.Exports x) → ∃ l ∈ sec.lines, l.name? = some x
  imported_not_carried : ∀ x, (∃ l ∈ sec.lines, l.Imports x) → ∀ l ∈ sec.lines, l.name? ≠ some x

/-- The directives that open the sections of a program. -/
def sectionDirectives (program : List Line) : List Line :=
  (program.takeWhile fun l => l.mnemonic ≠ "END").filter fun l => l.mnemonic = "START" ∨
    l.mnemonic = "CSECT"

/-! ## Openers and lines of sections -/

theorem openers_prependBody (ls : List Line) (secs : List ControlSection) :
    (prependBody ls secs).map (·.opener) = secs.map (·.opener) := by
  cases secs <;> rfl

theorem openers_sectionsFrom (opener : Line) {body : List Line} {last : Line} (rest : List Line)
    (hbody : ∀ l ∈ body, l.mnemonic ≠ "START" ∧ l.mnemonic ≠ "END")
    (hlast : last.mnemonic = "END") :
    (sectionsFrom opener (body ++ last :: rest)).map (·.opener) = opener :: sectionDirectives
      (body ++ last :: rest) := by
  induction body generalizing opener with
  | nil => simp [sectionsFrom, sectionDirectives, hlast]
  | cons l body ih =>
    obtain ⟨hstart, hend⟩ := hbody l List.mem_cons_self
    have ih := fun opener => ih opener fun k hk => hbody k (List.mem_cons_of_mem _ hk)
    rw [List.cons_append, sectionsFrom, if_neg hend]
    by_cases hsection : l.mnemonic = "CSECT"
    · rw [if_pos hsection, List.map_cons, ih]
      simp [sectionDirectives, hsection]
    · rw [if_neg hsection, openers_prependBody, ih]
      simp [sectionDirectives, hstart, hend, hsection]

theorem openers_controlSections {program : List Line} (h : TwoPass.Sectioned.Framed program) :
    (controlSections program).map (·.opener) = sectionDirectives program := by
  obtain ⟨first, body, last, rest, rfl, hfirst, hbody, hlast⟩ := h
  rw [controlSections, openers_sectionsFrom first rest hbody hlast]
  simp [sectionDirectives, hfirst]

theorem ControlSection.nameRows_eq_openRows (table : OpTable) (sec : ControlSection) :
    sec.nameRows table = openRows table sec.opener sec.lines := by
  unfold nameRows endRows lines
  split
  · rw [openRows_concat]
    rfl
  · rw [List.append_nil, List.append_nil]
    rfl

theorem mem_openRows_iff {table : OpTable} {opener : Line} {ls : List Line} {r : Row} :
    r ∈ openRows table opener ls ↔
    ∃ pre l post, ls = pre ++ l :: post ∧ r = ⟨extentOf .sectioned table pre, l, opener.label⟩ := by
  simp only [openRows, List.mem_map, mem_placed_iff, Int.zero_add]
  constructor
  · rintro ⟨p, ⟨pre, l, post, rfl, rfl⟩, rfl⟩
    exact ⟨pre, l, post, rfl, rfl⟩
  · rintro ⟨pre, l, post, rfl, rfl⟩
    exact ⟨_, ⟨pre, l, post, rfl, rfl⟩, rfl⟩

theorem openRows_map_line (table : OpTable) (opener : Line) (ls : List Line) :
    (openRows table opener ls).map (·.line) = ls := by
  rw [openRows, List.map_map]
  exact placed_map_line .sectioned table opener.label 0 ls

theorem ControlSection.nameRows_map_line (table : OpTable) (sec : ControlSection) :
    (sec.nameRows table).map (·.line) = sec.lines := by
  rw [sec.nameRows_eq_openRows table, openRows_map_line]

theorem ControlSection.mem_lines_cases {sec : ControlSection} {l : Line} (hl : l ∈ sec.lines) :
    l ∈ sec.body ∨ l.mnemonic = "END" := by
  rcases List.mem_append.1 hl with hl | hl
  · exact .inl hl
  · split at hl
    · next hend => exact .inr (List.mem_singleton.1 hl ▸ hend)
    · cases hl

namespace TwoPass.Sectioned

variable {table : OpTable} {use : NameUse} {sec : ControlSection}

/-! ## What a listed section says of its names -/

theorem Listed.linkFits (h : Listed table use sec) {l : Line} (hl : l ∈ sec.body) :
    ∃ a, l.LinkFits table use a := by
  rw [← placed_map_line .sectioned table sec.opener.label 0 sec.body, List.mem_map] at hl
  obtain ⟨p, hp, rfl⟩ := hl
  exact ⟨_, h.fits p hp⟩

/-- The space of lines of a section is counted from operands and operations. -/
theorem Listed.extentOf_eq_spaceOf (h : Listed table use sec) {ls : List Line}
    (hls : ∀ l ∈ ls, l ∈ sec.lines) :
    extentOf .sectioned table ls = spaceOf .sectioned table ls := by
  apply Assembler.extentOf_eq_spaceOf
  intro l hl
  rcases ControlSection.mem_lines_cases (hls l hl) with hbody | hend
  · obtain ⟨a, hfit⟩ := h.linkFits hbody
    exact hfit.extent_eq_space
  · simp only [Line.extent, Line.space, (Statement.ofMnemonic_eq_finish_iff _ _ _).2 hend]

theorem Listed.address?_eq_some_iff (h : Listed table use sec) {x : String} {a : Int} :
    (sec.names .twoPass table).address? x = some a ↔ sec.CarriesAt table x a := by
  have hspace : ∀ {pre l post}, sec.lines = pre ++ l :: post →
      extentOf .sectioned table pre = spaceOf .sectioned table pre := fun hcut =>
    h.extentOf_eq_spaceOf fun k hk => by rw [hcut]; exact List.mem_append_left _ hk
  rw [ControlSection.names, NameTable.address?_eq_some_iff h.compatible h.bare,
    sec.nameRows_eq_openRows table]
  constructor
  · rintro ⟨r, hr, hx, rfl⟩
    obtain ⟨pre, l, post, hcut, rfl⟩ := mem_openRows_iff.1 hr
    exact ⟨pre, l, post, hcut, hx, hspace hcut⟩
  · rintro ⟨pre, l, post, hcut, hx, rfl⟩
    exact ⟨_, mem_openRows_iff.2 ⟨pre, l, post, hcut, rfl⟩, hx, hspace hcut⟩

theorem Listed.sectionSymbols (h : Listed table use sec) {names : SectionNames (Option Int)}
    (hnames : names.get? = sec.names .twoPass table)
    (hdefined : ∀ x, NameTable.linkage? names.get? x = some .exported →
      (NameTable.address? names.get? x).isSome = true) :
    SectionSymbols table sec names := by
  have hc := h.compatible
  have hpairs := List.pairwise_map.2 hc
  rw [sec.nameRows_map_line table] at hpairs
  have hexists : ∀ P : Line → Prop, (∃ r ∈ sec.nameRows table, P r.line) ↔
      ∃ l ∈ sec.lines, P l := by
    intro P
    rw [← sec.nameRows_map_line table]
    simp
  have haddress : ∀ x a, NameTable.address? names.get? x = some a ↔ sec.CarriesAt table x a := by
    intro x a
    rw [hnames, h.address?_eq_some_iff]
  have hexported : ∀ x, NameTable.linkage? names.get? x = some .exported ↔
      ∃ l ∈ sec.lines, l.Exports x := by
    intro x
    rw [hnames, ← hexists]
    exact NameTable.exported_iff hc
  refine
    { known := fun x => ?_
      address := haddress
      exported := hexported
      imported := fun x => ?_
      carried_once := hpairs.imp fun hl => hl.labels
      declared_once := hpairs.imp fun hl => hl.declarations
      exported_carried := fun x hx => ?_
      imported_not_carried := fun x hx l hl hname => ?_ }
  · rw [hnames, ← hexists, ControlSection.names, NameTable.isSome_afterRows]
    simp
  · rw [hnames, ← hexists]
    exact NameTable.imported_afterRows_empty
  · obtain ⟨a, ha⟩ := Option.isSome_iff_exists.1 (hdefined x ((hexported x).2 hx))
    obtain ⟨pre, l, post, hcut, hname, -⟩ := (haddress x a).1 ha
    exact ⟨l, by rw [hcut]; simp, hname⟩
  · obtain ⟨q, hq, hqx⟩ := (hexists (·.Imports x)).2 hx
    obtain ⟨r, hr, hrx⟩ := (hexists (·.name? = some x)).2 ⟨l, hl, hname⟩
    exact NameTable.not_imports_of_name? hc h.bare hr hq hrx hqx

end TwoPass.Sectioned

/-- The symbols of a sectioned program that the first of two passes accepts: there is one table for
each section, in the order of the directives that open them, and the table of a section says what
the lines of the section say. -/
theorem listed_sectionSymbols (table : OpTable) (i : Int) (program : List Line) (rows : List Row)
    (symbols : Symbols)
    (h : listProgram ⟨.sectioned, .twoPass⟩ table (.ofIndex i) program =
      .ok (.listed rows symbols)) :
    ∃ sections, symbols = .sectioned sections ∧
      sections.keys = (sectionDirectives program).map (·.label) ∧ sections.keys.Nodup ∧
      (controlSections program).map (·.opener) = sectionDirectives program ∧
      ∀ sec ∈ controlSections program, ∃ names, sections.get? sec.opener.label = some names ∧
        SectionSymbols table sec names := by
  obtain ⟨hframed, sections, rfl, hlist, hdefined⟩ := TwoPass.Sectioned.of_list h
  have hopeners := openers_controlSections hframed
  have hlabels :
      (controlSections program).map (fun sec => sec.opener.label) = (sectionDirectives program).map
        (·.label) := by
    rw [← hopeners, List.map_map]
    rfl
  refine ⟨sections, rfl, hlist.keys.trans hlabels, hlist.keys ▸ hlist.distinct, hopeners,
    fun sec hsec => ?_⟩
  obtain ⟨names, hget, hnames⟩ := hlist.names hsec
  exact ⟨names, hget, (hlist.listed sec hsec).sectionSymbols hnames (hdefined _ names hget)⟩

/-- Two sections that both have a name of their own spelled alike; the first one exports it and
imports another. -/
def twoSections : List Line :=
  [⟨some "MAIN", ⟨"START", []⟩⟩, ⟨none, ⟨"EXTDEF", [.direct "GO"]⟩⟩,
    ⟨none, ⟨"EXTREF", [.direct "OUT"]⟩⟩, ⟨none, ⟨"WORD", [.chars "ab"]⟩⟩,
    ⟨some "GO", ⟨"JMP", [.direct "OUT"]⟩⟩, ⟨some "PART", ⟨"CSECT", []⟩⟩,
    ⟨some "A", ⟨"RESW", [.number 3]⟩⟩, ⟨some "GO", ⟨"END", []⟩⟩]

theorem twoSections_symbols : ∃ rows sections main part,
    listProgram ⟨.sectioned, .twoPass⟩ (.ofTriples [("JMP", 1, 4)]) (.ofIndex 0) twoSections =
      .ok (.listed rows (.sectioned sections)) ∧
    sections.keys = [some "MAIN", some "PART"] ∧ sections.get? (some "MAIN") = some main ∧
    sections.get? (some "PART") = some part ∧
    NameTable.address? main.get? "GO" = some 6 ∧
    NameTable.linkage? main.get? "GO" = some .exported ∧
    NameTable.linkage? main.get? "OUT" = some .imported ∧
    NameTable.address? part.get? "GO" = some 9 ∧ part.get? "OUT" = none := by
  obtain ⟨rows, symbols, h⟩ :
      ∃ rows symbols, listProgram ⟨.sectioned, .twoPass⟩ (.ofTriples [("JMP", 1, 4)])
        (.ofIndex 0) twoSections = .ok (.listed rows symbols) := ⟨_, _, rfl⟩
  obtain ⟨sections, rfl, hkeys, -, -, hall⟩ := listed_sectionSymbols _ 0 twoSections rows symbols h
  have hsections : controlSections twoSections =
      [⟨⟨some "MAIN", ⟨"START", []⟩⟩, (twoSections.drop 1).take 4, ⟨some "PART", ⟨"CSECT", []⟩⟩⟩,
        ⟨⟨some "PART", ⟨"CSECT", []⟩⟩, [⟨some "A", ⟨"RESW", [.number 3]⟩⟩],
          ⟨some "GO", ⟨"END", []⟩⟩⟩] := rfl
  rw [hsections] at hall
  obtain ⟨main, hmain, hmainNames⟩ := hall _ List.mem_cons_self
  obtain ⟨part, hpart, hpartNames⟩ := hall _ (List.mem_cons_of_mem _ List.mem_cons_self)
  have hunknown : part.get? "OUT" = none := by
    have hiff := hpartNames.known "OUT"
    rw [iff_false_right (by decide +kernel)] at hiff
    simpa using hiff
  exact ⟨rows, sections, main, part, h, hkeys, hmain, hpart,
    (hmainNames.address "GO" 6).2 ⟨(twoSections.drop 1).take 3, _, [], rfl, rfl, by decide +kernel⟩,
    (hmainNames.exported "GO").2 ⟨_, List.mem_cons_self, by decide⟩,
    (hmainNames.imported "OUT").2 ⟨_, List.mem_cons_of_mem _ List.mem_cons_self, by decide⟩,
    (hpartNames.address "GO" 9).2 ⟨[⟨some "A", ⟨"RESW", [.number 3]⟩⟩], _, [], rfl,
      rfl, by decide +kernel⟩, hunknown⟩

end Assembler
