import Assembler.Proofs.Frames
import Assembler.Proofs.SectionStage

/-! # Sectioned programs in one pass

A directive that closes a section leaves the drafts of the section as a whole, in which no row waits
any more.  Going from section to section, the pass over a program that it accepts makes the records
of its control sections (`of_trace`). -/

namespace Assembler.OnePass.Sectioned
open Assembler
set_option autoImplicit false

variable {table : OpTable} {use : NameUse} {done : List ControlSection} {opener : Line}
  {cs : List RowContext} {N : NameTable} {a : Int} {s s' : State} {l : Line}

/-! ## Closing a section -/

namespace State

theorem modificationDrafts_congr {s t : State} (h : s.names = t.names) (ms : List (Int × String)) :
    s.modificationDrafts ms = t.modificationDrafts ms := by
  induction ms with
  | nil => rfl
  | cons m ms ih =>
    obtain ⟨a, x⟩ := m
    rw [modificationDrafts, modificationDrafts, h, ih]

theorem modificationDrafts_eq {ns : SectionNames (Option Int)}
    (hns : s.sections.get? s.current = some ns) {ms : List (Int × String)} {ds : List Draft}
    (h : s.modificationDrafts ms = .ok ds) :
    ds = ms.map (modificationDraft ns.get?) := by
  induction ms generalizing ds with
  | nil => cases h; rfl
  | cons m ms ih =>
    obtain ⟨a, x⟩ := m
    simp only [modificationDrafts, names_eq_ok_iff.2 hns] at h
    cases hx : ns.get? x with
    | none => simp [hx] at h
    | some e =>
      simp only [hx, map_eq_ok_iff] at h
      obtain ⟨ds, hds, rfl⟩ := h
      simp [ih hds, modificationDraft, NameTable.Imported, NameTable.linkage?, hx]

theorem writeModifications_eq_ok_iff : s.writeModifications = .ok s' ↔
    ∃ mods, s.modificationDrafts s.modified = .ok mods ∧
    { s with drafts := s.drafts ++ mods, modified := [] } = s' :=
  map_eq_ok_iff _ _ _

theorem writeLength_eq_ok_iff : s.writeLength = .ok s' ↔
    ∃ ds, changeAt (fun r => .ok (r.setLength (s.counter - s.origin)))
      (some s.headerPlace) s.drafts = .ok ds ∧
      { s with drafts := ds } = s' := map_eq_ok_iff _ _ _

/-- A section directive that nothing is wrong with closes a section in which nothing waits, at an
entry address of that section, and opens one with a new name. -/
theorem sectionLine_clean_iff : (s.sectionLine l = .ok s' ∧ s'.found = []) ↔
    s.found = [] ∧ s.waiting.keys = [] ∧
      (isOptionalNumber l.operands = true ∧ l.name?.isSome = true ∧ l.label ∉ s.begun ∧
        s.entryPoint l ∈ s.visited) ∧
      ∃ mods ds, s.modificationDrafts s.modified = .ok mods ∧
        changeAt (fun r => .ok (r.setLength (s.counter - s.origin))) (some s.headerPlace)
          (s.drafts ++ mods) = .ok ds ∧
        s' = { s with
          counter := 0
          origin := 0
          visited := [0]
          current := l.label
          begun := s.begun ++ [l.label]
          sections := s.sections.insert l.label ∅
          modified := []
          headerPlace := ds.length + 1
          drafts := ds ++ [.finish (s.entryPoint l), .header l.label 0 none] } := by
  constructor
  · rintro ⟨h, hf⟩
    unfold sectionLine at h
    generalize hqs : (if isOptionalNumber l.operands = true then [] else [Problem.badSection]) ++
      (if l.name?.isNone = true then [Problem.unnamedSection] else []) = qs at h
    cases hw : (s.report qs).writeModifications with
    | error x => simp [hw] at h
    | ok s₁ =>
      simp only [hw, map_eq_ok_iff, writeLength_eq_ok_iff] at h
      obtain ⟨-, ⟨ds, hds, rfl⟩, rfl⟩ := h
      obtain ⟨mods, hmods, rfl⟩ := writeModifications_eq_ok_iff.1 hw
      simp only [nextSection, begin, checkEntry, entryPoint, report, add, setNames, reportWaiting,
        List.append_eq_nil_iff, Site.report_eq_nil_iff, List.map_eq_nil_iff] at hf
      obtain ⟨⟨⟨⟨hf, rfl⟩, hwaiting⟩, hentry⟩, hbegun⟩ := hf
      have hentry : (onlyNumber? l.operands).getD s.origin ∈ s.visited := by simpa using hentry
      have hbegun : l.label ∉ s.begun := by simpa using hbegun
      obtain ⟨hnumber, hname⟩ := List.append_eq_nil_iff.1 hqs
      refine ⟨hf, hwaiting,
        ⟨by simpa using hnumber, by simpa [Option.isSome_iff_ne_none] using hname, hbegun, hentry⟩,
        mods, ds, ?_, hds, ?_⟩
      · rw [← hmods]
        exact modificationDrafts_congr (by rfl) _
      · simp [nextSection, begin, checkEntry, entryPoint, report, add, setNames, reportWaiting,
          hwaiting, hentry, hbegun]
  · rintro ⟨hf, hwaiting, ⟨hnumber, hname, hbegun, hentry⟩, mods, ds, hmods, hds, rfl⟩
    have hentry' : (onlyNumber? l.operands).getD s.origin ∈ s.visited := hentry
    have hw : s.writeModifications = .ok { s with drafts := s.drafts ++ mods, modified := [] } :=
      writeModifications_eq_ok_iff.2 ⟨mods, hmods, rfl⟩
    have hlength :
        writeLength { s with drafts := s.drafts ++ mods, modified := [] } =
          .ok { s with drafts := ds, modified := [] } :=
      writeLength_eq_ok_iff.2 ⟨ds, hds, rfl⟩
    refine ⟨?_, hf⟩
    have hname : l.name?.isNone = false := by simpa [Option.isSome_iff_ne_none] using hname
    simp [sectionLine, hnumber, hname, report, hw, reportWaiting, hwaiting, hlength, nextSection,
      begin, checkEntry, entryPoint, add, setNames, hentry', hbegun]

/-- An end directive that nothing is wrong with closes a section in which nothing waits, at an entry
address of that section. -/
theorem endLine_clean_iff : (s.endLine l = .ok s' ∧ s'.found = []) ↔
    s.found = [] ∧ s.waiting.keys = [] ∧
    (isOptionalNumber l.operands = true ∧ s.entryPoint l ∈ s.visited) ∧
      ∃ mods ds, s.modificationDrafts s.modified = .ok mods ∧
        changeAt (fun r => .ok (r.setLength (s.counter - s.origin))) (some s.headerPlace) s.drafts =
          .ok ds ∧
        s' = { s with
          ended := true, modified := [], drafts := ds ++ mods ++ [.finish (s.entryPoint l)] } := by
  constructor
  · rintro ⟨h, hf⟩
    unfold endLine at h
    generalize hqs :
      (if isOptionalNumber l.operands = true then [] else [Problem.badEndOperand]) = qs at h
    cases hw : writeLength { s.report qs with ended := true } with
    | error x => simp [hw] at h
    | ok s₁ =>
      simp only [hw, map_eq_ok_iff, writeModifications_eq_ok_iff] at h
      obtain ⟨-, ⟨mods, hmods, rfl⟩, rfl⟩ := h
      obtain ⟨ds, hds, rfl⟩ := writeLength_eq_ok_iff.1 hw
      simp only [checkEntry, entryPoint, report, add, reportWaiting, List.append_eq_nil_iff,
        Site.report_eq_nil_iff, List.map_eq_nil_iff] at hf
      obtain ⟨⟨⟨hf, rfl⟩, hentry⟩, hwaiting⟩ := hf
      have hentry : (onlyNumber? l.operands).getD s.origin ∈ s.visited := by simpa using hentry
      refine ⟨hf, hwaiting, ⟨by simpa using hqs, hentry⟩, mods, ds, ?_, hds, ?_⟩
      · rw [← hmods]
        exact modificationDrafts_congr (by rfl) _
      · simp [checkEntry, entryPoint, report, add, reportWaiting, hwaiting, hentry]
  · rintro ⟨hf, hwaiting, ⟨hnumber, hentry⟩, mods, ds, hmods, hds, rfl⟩
    have hentry' : (onlyNumber? l.operands).getD s.origin ∈ s.visited := hentry
    have hlength :
        writeLength { s with ended := true } = .ok { s with ended := true, drafts := ds } :=
      writeLength_eq_ok_iff.2 ⟨ds, hds, rfl⟩
    have hw : writeModifications { s with ended := true, drafts := ds } =
        .ok { s with ended := true, drafts := ds ++ mods, modified := [] } :=
      writeModifications_eq_ok_iff.2 ⟨mods, (modificationDrafts_congr (by rfl) _).trans hmods, rfl⟩
    refine ⟨?_, hf⟩
    simp [endLine, hnumber, report, hlength, checkEntry, entryPoint, hentry', hw, reportWaiting,
      hwaiting, add]

end State

theorem Stage.modificationDrafts (h : Stage table use done opener cs N a s) {mods : List Draft}
    (hm : s.modificationDrafts s.modified = .ok mods) :
    mods = ((cs.map (·.row)).flatMap (modifiedNames table)).map (modificationDraft N) := by
  obtain ⟨ns, hns, rfl⟩ := h.names
  rw [State.modificationDrafts_eq hns hm, h.modified]

theorem Stage.setLength (h : Stage table use done opener cs N a s) {mods ds : List Draft}
    (hd : changeAt (fun r => .ok (r.setLength (s.counter - s.origin))) (some s.headerPlace)
      (s.drafts ++ mods) = .ok ds) :
    ds = done.flatMap (draftsOf table) ++ .header opener.label 0 (some a) ::
      (cs.map (·.draft table) ++ mods) := by
  rw [h.drafts, List.append_assoc, List.cons_append, h.headerPlace, changeAt_append, h.counter,
    h.origin, Int.sub_zero] at hd
  exact (Except.ok.inj hd).symm

theorem get?_of_keys_eq_nil {waiting : Waiting} (h : waiting.keys = []) (x : String) :
    waiting.get? x = none := by
  have hmem := OrderedMap.mem_keys_iff waiting x
  rw [h] at hmem
  simpa using hmem

theorem Stage.not_awaits (h : Stage table use done opener cs N a s) (hw : s.waiting.keys = [])
    {c : RowContext} (hc : c ∈ cs) (x : String) : ¬ c.Awaits table x := by
  have hplaces := h.waiting x
  rw [get?_of_keys_eq_nil hw] at hplaces
  split at hplaces
  · next hnil => exact (placesWhere_eq_nil_iff _ _ _).1 hnil c hc
  · cases hplaces

/-! ## The frame of a program -/

namespace State

theorem line_eq (hstart : l.mnemonic ≠ "START") (hsection : l.mnemonic ≠ "CSECT") :
    s.line table use l =
      match s.expectStarted.noteLabel l with
      | .error x => .error x
      | .ok s' => s'.bodyLine use (Statement.ofMnemonic .sectioned table l.mnemonic) l := by
  unfold line
  split
  · next h => exact absurd ((Statement.ofMnemonic_eq_start_iff _ _ _).1 h) hstart
  · next h => exact absurd ((Statement.ofMnemonic_eq_newSection_iff _ _).1 h) hsection
  · rfl

theorem frame_of_noteLabel (h : s.noteLabel l = .ok s') (hf : s'.found = []) :
    s.found = [] ∧ s'.started = s.started ∧ s'.ended = s.ended := by
  unfold noteLabel at h
  split at h
  · cases h
    exact ⟨hf, rfl, rfl⟩
  · split at h
    · cases h
    · split at h
      · cases h
        simp [report] at hf
      · obtain ⟨hf, ds, -, waiting, -, rfl⟩ := fillWaiting_clean h hf
        exact ⟨(List.append_eq_nil_iff.1 hf).1, rfl, rfl⟩

theorem frame_of_bodyLine {stmt : Statement} (h : s.bodyLine use stmt l = .ok s')
    (hf : s'.found = []) :
    s.found = [] ∧ s'.started = s.started ∧ (stmt ≠ .finish → s'.ended = s.ended) ∧
      (stmt = .finish → s'.ended = true) := by
  unfold bodyLine at h
  split at h
  · obtain ⟨hc, -, -, mods, ds, -, -, rfl⟩ := endLine_clean_iff.1 ⟨h, hf⟩
    exact ⟨hc, rfl, fun h => absurd rfl h, fun _ => rfl⟩
  · obtain ⟨hc, -, rfl⟩ := storageLine_clean h hf
    exact ⟨hc, rfl, fun _ => rfl, nofun⟩
  · obtain ⟨hc, -, ns, x, -, -, -, rfl⟩ := exportLine_clean h hf
    exact ⟨hc, rfl, fun _ => rfl, nofun⟩
  · obtain ⟨hc, -, ns, x, -, -, -, rfl⟩ := importLine_clean h hf
    exact ⟨hc, rfl, fun _ => rfl, nofun⟩
  · obtain ⟨hc, -, -, r, -, hw⟩ := commandLine_clean h hf
    obtain ⟨sections, waiting, rfl⟩ := waitForAll_eq hw
    exact ⟨hc, rfl, fun _ => rfl, nofun⟩
  · cases h
    simp [report] at hf

theorem expectStarted_clean (h : s.expectStarted.found = []) :
    s.found = [] ∧ s.started = true ∧ s.expectStarted = s := by
  unfold expectStarted at h ⊢
  split at h
  · next hs => exact ⟨h, hs, if_pos hs⟩
  · simp [report] at h

/-- What a line other than a start directive leaves of the frame. -/
theorem frame_of_line (hl : l.mnemonic ≠ "START") (h : s.line table use l = .ok s')
    (hf : s'.found = []) :
    s.found = [] ∧ s.started = true ∧ s'.started = true ∧
      (s.ended = false → (s'.ended = true ↔ l.mnemonic = "END")) := by
  by_cases hsection : l.mnemonic = "CSECT"
  · unfold line at h
    rw [(Statement.ofMnemonic_eq_newSection_iff _ _).2 hsection] at h
    obtain ⟨hc, -, -, mods, ds, -, -, rfl⟩ := sectionLine_clean_iff.1 ⟨h, hf⟩
    obtain ⟨hc, hs, heq⟩ := expectStarted_clean hc
    refine ⟨hc, hs, by rw [heq]; exact hs, fun he => ?_⟩
    simp [heq, he, hsection]
  · rw [line_eq hl hsection] at h
    cases hn : s.expectStarted.noteLabel l with
    | error x => simp [hn] at h
    | ok s₁ =>
      simp only [hn] at h
      obtain ⟨hf₁, hstarted, hkeep, hend⟩ := frame_of_bodyLine h hf
      obtain ⟨hf₀, hstarted₀, hended₀⟩ := frame_of_noteLabel hn hf₁
      obtain ⟨hc, hs, heq⟩ := expectStarted_clean hf₀
      rw [heq] at hstarted₀ hended₀
      refine ⟨hc, hs, hstarted.trans (hstarted₀.trans hs), fun he => ?_⟩
      rw [← Statement.ofMnemonic_eq_finish_iff .sectioned table]
      refine ⟨fun he' => ?_, hend⟩
      by_contra hne
      rw [hkeep hne, hended₀, he] at he'
      cases he'

theorem line_start (hl : l.mnemonic = "START") : s.line table use l = .ok (s.startLine l) := by
  rw [line, (Statement.ofMnemonic_eq_start_iff _ _ _).2 hl]

theorem stepping (table : OpTable) (use : NameUse) :
    Stepping (fun s _ l => line table use s l) (·.started) (·.ended) (fun s => s.found = []) := by
  refine .of_frame (fun s : State => s.toFrame) .sectioned (fun hl h => ?_) frame_of_line
  rw [line_start hl] at h
  obtain rfl := Except.ok.inj h
  exact ⟨.inSection _, rfl⟩

/-- The state after a start directive that nothing is wrong with. -/
def opened (first : Line) : State := { start with started := true }.begin first.label

/-- A program with sections is loaded at zero. -/
theorem commences_start_iff {first : Line} : start.Commences .sectioned first ↔
    isOptionalNumber first.operands = true ∧ first.name?.isSome = true ∧
    Layout.sectioned.load first = 0 := by
  refine (Frame.commences_initial_iff .sectioned).trans ?_
  simp only [Layout.loadProblems]
  constructor
  · rintro ⟨hop, hname, -, hzero⟩
    exact ⟨hop, hname, by simpa using hzero⟩
  · rintro ⟨hop, hname, hzero⟩
    rw [hzero]
    exact ⟨hop, hname, by decide, rfl⟩

theorem startLine_start {first : Line} (h : start.Commences .sectioned first) :
    start.startLine first = opened first := by
  have hload : start.load first = .initial (Layout.sectioned.load first) :=
    Frame.load_initial .sectioned first
  rw [startLine, h.commence, hload, (commences_start_iff.1 h).2.2]
  rfl

theorem start_line_iff {first : Line} (hl : first.mnemonic = "START") :
    (start.line table use first = .ok s ∧ s.found = []) ↔ start.Commences .sectioned first ∧
      s = opened first := by
  rw [line_start hl]
  constructor
  · rintro ⟨h, hf⟩
    obtain rfl := Except.ok.inj h
    have hcommences := (Frame.found_commence_eq_nil_iff _).1 hf
    exact ⟨hcommences, startLine_start hcommences⟩
  · rintro ⟨hcommences, rfl⟩
    exact ⟨by rw [startLine_start hcommences], rfl⟩

end State

/-! ## From section to section -/

/-- The contexts of the rows of the open section. -/
def openContexts (table : OpTable) (opener : Line) (ls : List Line) : List RowContext :=
  contexts table (fun _ => none) (placed .sectioned table opener.label 0 ls) []

/-- A closed section that nothing is wrong with: each row is taken after the names before it, fits
and waits for no name, and no distance to an imported name was asked for. -/
structure SectionFits (table : OpTable) (use : NameUse) (sec : ControlSection) : Prop where
  taken : NameTable.TakesAll table (sec.nameRows table)
  rows : ∀ c ∈ contextsOf table sec, RowFits table use c.row
  settled : ∀ c ∈ contextsOf table sec, ∀ x, ¬ c.Awaits table x
  relatives : ∀ c ∈ contextsOf table sec, ∀ x, c.line.operands = [.relative x] →
    ∀ e, c.entryFor? table x = some e → e.linkage ≠ some .imported

theorem SectionFits.linkFits {sec : ControlSection} (h : SectionFits table use sec) :
    ∀ p ∈ sec.rows table, p.1.line.LinkFits table use p.1.address := by
  intro p hp
  rw [← contexts_map_row table (fun _ => none) (sec.rows table) (sec.endRows table), List.mem_map]
    at hp
  obtain ⟨c, hc, rfl⟩ := hp
  exact (h.rows c hc).fits

/-- The pass after the sections `done` and the lines `ls` of the open one, all of which nothing is
wrong with. -/
structure Progress (table : OpTable) (use : NameUse) (done : List ControlSection) (opener : Line)
    (ls : List Line) (s : State) : Prop where
  stage : Stage table use done opener (openContexts table opener ls)
    (NameTable.afterRows .onePass table (fun _ => none) (openRows table opener ls))
      (extentOf .sectioned table ls) s
  taken : NameTable.TakesAll table (openRows table opener ls)
  closed : ∀ sec ∈ done, SectionFits table use sec

/-- A label that is left without a problem, and the stage before what the line asks for. -/
theorem Stage.noted (ht : table.Sized .sectioned) (h : Stage table use done opener cs N a s)
    (hN : ∀ c ∈ cs, NameTable.afterRows .onePass table (c.after table) c.later = N)
    (hstart : l.mnemonic ≠ "START") (hsection : l.mnemonic ≠ "CSECT")
    (hs : s.line table use l = .ok s') (hf : s'.found = []) :
    (∀ x, l.name? = some x → N.address? x = none) ∧
      ∃ s₁, Stage table use done opener (cs.map (·.extend ⟨a, l, opener.label⟩))
        (N.label a l) a s₁ ∧
        s₁.bodyLine use (Statement.ofMnemonic .sectioned table l.mnemonic) l = .ok s' := by
  rw [State.line_eq hstart hsection, State.expectStarted, if_pos h.started] at hs
  cases hn : s.noteLabel l with
  | error x => simp [hn] at hs
  | ok s₁ =>
    simp only [hn] at hs
    obtain ⟨hlabel, hstage⟩ := h.noteLabel ht hN hn (State.frame_of_bodyLine hs hf).1
    exact ⟨hlabel, s₁, hstage, hs⟩

/-- A line of a section. -/
theorem Stage.line (ht : table.Sized .sectioned) (h : Stage table use done opener cs N a s)
    (hN : ∀ c ∈ cs, NameTable.afterRows .onePass table (c.after table) c.later = N)
    (hl : l.mnemonic ≠ "START" ∧ l.mnemonic ≠ "END") (hsection : l.mnemonic ≠ "CSECT")
    (hs : s.line table use l = .ok s') (hf : s'.found = []) :
    N.Takes l ∧
      Stage table use done opener
        (cs.map (·.extend ⟨a, l, opener.label⟩) ++ [freshContext table opener N a l])
          (N.after .onePass table a l) (a + l.extent .sectioned table) s' := by
  obtain ⟨hlabel, s₁, hstage, hbody⟩ := h.noted ht hN hl.1 hsection hs hf
  have hplain : Statement.ofMnemonic .sectioned table l.mnemonic ≠ .exportName →
      Statement.ofMnemonic .sectioned table l.mnemonic ≠ .importName → N.Takes l := fun he hi =>
    ⟨hlabel, fun x hx => (hx.elim (Line.not_exports he x) (Line.not_imports hi x)).elim⟩
  generalize hst : Statement.ofMnemonic .sectioned table l.mnemonic = st at hbody hplain
  cases st with
  | storage kind => exact ⟨hplain nofun nofun, hstage.storageLine hst hbody hf⟩
  | exportName =>
    obtain ⟨hlinkage, hstage⟩ := hstage.exportLine hst hbody hf
    exact ⟨⟨hlabel, hlinkage⟩, hstage⟩
  | importName =>
    obtain ⟨hlinkage, hstage⟩ := hstage.importLine hst hbody hf
    exact ⟨⟨hlabel, hlinkage⟩, hstage⟩
  | command op => exact ⟨hplain nofun nofun, hstage.commandLine ht hst hbody hf⟩
  | finish => exact absurd ((Statement.ofMnemonic_eq_finish_iff _ _ _).1 hst) hl.2
  | _ =>
    cases hbody
    simp [State.report] at hf

theorem afterRows_of_mem_openContexts (table : OpTable) (opener : Line) (ls : List Line) :
    ∀ c ∈ openContexts table opener ls, NameTable.afterRows .onePass table (c.after table) c.later =
      NameTable.afterRows .onePass table (fun _ => none) (openRows table opener ls) :=
      fun c hc => by
  rw [afterRows_of_mem_contexts _ _ _ _ hc, List.append_nil]
  rfl

theorem Progress.line (ht : table.Sized .sectioned) {ls : List Line}
    (h : Progress table use done opener ls s) (hl : l.mnemonic ≠ "START" ∧ l.mnemonic ≠ "END")
    (hsection : l.mnemonic ≠ "CSECT") (hs : s.line table use l = .ok s') (hf : s'.found = []) :
    Progress table use done opener (ls ++ [l]) s' := by
  obtain ⟨htakes, hstage⟩ :=
    h.stage.line ht (afterRows_of_mem_openContexts table opener ls) hl hsection hs hf
  have hplaced :
      placed .sectioned table opener.label 0 (ls ++ [l]) =
        placed .sectioned table opener.label 0 ls ++
          [(⟨extentOf .sectioned table ls, l, opener.label⟩, l.extent .sectioned table)] := by
    rw [placed_append, Int.zero_add]
    rfl
  have hrows := openRows_concat table opener ls l
  refine ⟨?_, ?_, h.closed⟩
  · rw [hrows, NameTable.afterRows_append, extentOf_append]
    have hext : extentOf .sectioned table [l] = l.extent .sectioned table := by simp [extentOf]
    rw [hext, openContexts, hplaced, contexts_concat]
    exact hstage
  · rw [hrows]
    exact NameTable.takesAll_concat h.taken htakes

/-- Closing the open section at a section directive leaves its rows as they are. -/
theorem contextsOf_of_section (table : OpTable) (opener : Line) (ls : List Line)
    (hl : l.mnemonic = "CSECT") :
    contextsOf table ⟨opener, ls, l⟩ = openContexts table opener ls := by
  simp [contextsOf, openContexts, ControlSection.endRows, ControlSection.rows, hl]

/-- At the end directive one more row stands behind the rows of the open section. -/
theorem contextsOf_of_end (table : OpTable) (opener : Line) (ls : List Line)
    (hl : l.mnemonic = "END") :
    contextsOf table ⟨opener, ls, l⟩ =
      (openContexts table opener ls).map
        (·.extend ⟨extentOf .sectioned table ls, l, opener.label⟩) := by
  rw [openContexts, ← contexts_extend]
  simp [contextsOf, ControlSection.endRows, ControlSection.rows, ControlSection.length, hl]

theorem flatMap_draftsOf_concat {sec : ControlSection} (hcs : contextsOf table sec = cs) :
    (done ++ [sec]).flatMap (draftsOf table) = done.flatMap (draftsOf table) ++
      .header sec.opener.label 0 (some (sec.length table)) ::
        (cs.map (·.draft table) ++
          ((cs.map (·.row)).flatMap (modifiedNames table)).map
            (modificationDraft (sec.names .onePass table))) ++
      [.finish sec.entry] := by
  simp [draftsOf, closedDrafts, hcs, ControlSection.entry]

theorem Progress.sectionLine {ls : List Line} (h : Progress table use done opener ls s)
    (hl : l.mnemonic = "CSECT") (hs : s.line table use l = .ok s') (hf : s'.found = []) :
    Progress table use (done ++ [⟨opener, ls, l⟩]) l [] s' := by
  unfold State.line at hs
  rw [(Statement.ofMnemonic_eq_newSection_iff _ _).2 hl, State.expectStarted,
    if_pos h.stage.started] at hs
  obtain ⟨-, hw, -, mods, ds, hmods, hds, rfl⟩ := State.sectionLine_clean_iff.1 ⟨hs, hf⟩
  have hcs := contextsOf_of_section table opener ls hl
  have hrows : ControlSection.nameRows table ⟨opener, ls, l⟩ = _ :=
    ControlSection.nameRows_of_section table hl
  have hnames : ControlSection.names .onePass table ⟨opener, ls, l⟩ =
      NameTable.afterRows .onePass table (fun _ => none) (openRows table opener ls) := by
        rw [ControlSection.names, hrows]
  have hentry : s.entryPoint l = ControlSection.entry ⟨opener, ls, l⟩ := by
    rw [State.entryPoint, h.stage.origin]; rfl
  have hdrafts :
      ds ++ [.finish (s.entryPoint l)] = List.flatMap (draftsOf table)
        (done ++ [⟨opener, ls, l⟩]) := by
    rw [flatMap_draftsOf_concat hcs, h.stage.setLength hds, h.stage.modificationDrafts hmods,
      hnames, hentry]
    rfl
  have hlength :
      ds.length + 1 = (List.flatMap (draftsOf table) (done ++ [⟨opener, ls, l⟩])).length := by
    rw [← hdrafts, List.length_append, List.length_singleton]
  refine ⟨?_, fun pre r post heq => by simp [openRows, placed] at heq, ?_⟩
  · refine
      { counter := rfl, origin := rfl, started := h.stage.started, found := hf, current := rfl,
        headerPlace := hlength
        drafts := by rw [← hdrafts, List.append_assoc]; rfl
        modified := rfl
        tables := fun k => ?_
        waiting := fun x => by rw [get?_of_keys_eq_nil hw]; rfl
        lines := by simp [openContexts, placed, contexts]
        relatives := by simp [openContexts, placed, contexts] }
    rw [tableOf_concat, OrderedMap.get?_insert]
    split
    · rfl
    · rw [h.stage.tables, tablesOf, tablesOf, List.map_append, ← hnames]
      rfl
  · intro sec hsec
    rcases List.mem_append.1 hsec with hsec | hsec
    · exact h.closed sec hsec
    · rw [List.mem_singleton.1 hsec]
      exact ⟨by rw [hrows]; exact h.taken, by rw [hcs]; exact h.stage.lines,
        by rw [hcs]; exact fun c hc => h.stage.not_awaits hw hc, by
          rw [hcs]; exact h.stage.relatives⟩

/-- What a program that the pass accepts has left at its end directive. -/
theorem Progress.endLine (ht : table.Sized .sectioned) {ls : List Line}
    (h : Progress table use done opener ls s) (hl : l.mnemonic = "END")
    (hs : s.line table use l = .ok s') (hf : s'.found = []) :
    s'.drafts = List.flatMap (draftsOf table) (done ++ [⟨opener, ls, l⟩]) ∧
      (∀ k, (s'.sections.get? k).map (fun ns => ns.get?) =
        tableOf (tablesOf .onePass table (done ++ [⟨opener, ls, l⟩])) k) ∧
      ∀ sec ∈ done ++ [⟨opener, ls, l⟩], SectionFits table use sec := by
  obtain ⟨hlabel, s₁, hstage, hbody⟩ :=
    h.stage.noted ht (afterRows_of_mem_openContexts table opener ls) (by simp [hl])
      (by simp [hl]) hs hf
  have hst := (Statement.ofMnemonic_eq_finish_iff .sectioned table _).2 hl
  rw [hst] at hbody
  obtain ⟨-, hw, -, mods, ds, hmods, hds, rfl⟩ := State.endLine_clean_iff.1 ⟨hbody, hf⟩
  have hcs := contextsOf_of_end table opener ls hl
  have hexp := Line.not_exports (l := l) (by rw [hst]; nofun)
  have himp := Line.not_imports (l := l) (by rw [hst]; nofun)
  have hnames : ControlSection.names .onePass table ⟨opener, ls, l⟩ = _ :=
    ControlSection.names_of_end .onePass table hl
  have hentry : s₁.entryPoint l = ControlSection.entry ⟨opener, ls, l⟩ := by
    rw [State.entryPoint, hstage.origin]; rfl
  rw [← List.append_nil s₁.drafts] at hds
  refine ⟨?_, fun k => ?_, fun sec hsec => ?_⟩
  · rw [flatMap_draftsOf_concat hcs, hstage.setLength hds, hstage.modificationDrafts hmods,
      hnames, hentry]
    simp [ControlSection.length]
  · rw [hstage.tables, tablesOf, tablesOf, List.map_append, ← hnames]
    rfl
  · rcases List.mem_append.1 hsec with hsec | hsec
    · exact h.closed sec hsec
    · rw [List.mem_singleton.1 hsec]
      refine ⟨?_, by rw [hcs]; exact hstage.lines, by
        rw [hcs]; exact fun c hc => hstage.not_awaits hw hc,
        by rw [hcs]; exact hstage.relatives⟩
      rw [ControlSection.nameRows_of_end table hl]
      exact NameTable.takesAll_concat h.taken ⟨hlabel, fun x hx => (hx.elim (hexp x) (himp x)).elim⟩

/-! ## What is shown -/

def modificationRecord (N : NameTable) (m : Int × String) : ObjectRecord :=
  .modification m.1 ((if N.Imported m.2 then some m.2 else none).filter (· ≠ ""))

/-- The records of a closed section. -/
def recordsOf (table : OpTable) (sec : ControlSection) : List ObjectRecord :=
  .header sec.opener.label 0 (some (sec.length table)) ::
    ((contextsOf table sec).map (·.record table) ++
      ((sec.rows table).flatMap (modifiedNames table)).map
        (modificationRecord (sec.names .onePass table)) ++
      [.finish sec.entry])

theorem records_draftsOf (ht : table.Sized .sectioned) {sec : ControlSection}
    (h : SectionFits table use sec) :
    List.Forall₂ (fun r o => r.record dialect = .ok o) (draftsOf table sec)
      (recordsOf table sec) := by
  have hrows : (contextsOf table sec).map (·.row) = sec.rows table := contexts_map_row _ _ _ _
  rw [draftsOf, closedDrafts, recordsOf, hrows]
  refine .cons rfl (List.rel_append (List.rel_append ?_ ?_) (.cons rfl .nil))
  · rw [List.forall₂_map_left_iff, List.forall₂_map_right_iff, List.forall₂_same]
    exact fun c hc => RowContext.record_draft ht (h.rows c hc)
  · rw [List.forall₂_map_left_iff, List.forall₂_map_right_iff, List.forall₂_same]
    intro m _
    simp only [modificationDraft, modificationRecord, Draft.record]
    split
    · by_cases hx : m.2 = "" <;> simp [Option.filter, hx]
    · rfl

theorem records_flatMap (ht : table.Sized .sectioned) {secs : List ControlSection}
    (h : ∀ sec ∈ secs, SectionFits table use sec) :
    Draft.records dialect (secs.flatMap (draftsOf table)) =
      .ok (secs.flatMap (recordsOf table)) := by
  rw [Draft.records_eq_ok_iff]
  induction secs with
  | nil => exact .nil
  | cons sec secs ih =>
    rw [List.flatMap_cons, List.flatMap_cons]
    exact List.rel_append (records_draftsOf ht (h sec List.mem_cons_self))
      (ih fun k hk => h k (List.mem_cons_of_mem _ hk))

theorem view_close_clean {v : Snapshot} {rs : List ObjectRecord} (h : s.close.view = .ok v)
    (hrs : v.records = some rs) :
    s.found = [] ∧ s.ended = true ∧ Draft.records dialect s.drafts = .ok rs ∧
      v.symbols = .sectioned s.sections := by
  obtain ⟨os, hos, rfl⟩ := (map_eq_ok_iff _ _ _).1 h
  have hclose : s.close.found = [] := by
    by_contra hne
    simp [hne] at hrs
  have hclosed := hclose
  simp only [State.close, List.append_eq_nil_iff, Site.report_eq_nil_iff] at hclosed
  obtain rfl : os = rs := by simpa [hclose] using hrs
  exact ⟨hclosed.1, by simpa using hclosed.2.1.2, hos, rfl⟩

theorem Progress.start (table : OpTable) (use : NameUse) (first : Line) :
    Progress table use [] first [] (.opened first) := by
  refine ⟨?_, fun pre r post heq => by simp [openRows, placed] at heq, by simp⟩
  exact
    { counter := rfl, origin := rfl, started := rfl, found := rfl, current := rfl,
      headerPlace := rfl, drafts := rfl
      modified := rfl
      tables := fun k => by
        rw [tableOf_concat]
        simp only [State.opened, State.begin, State.setNames, State.add, OrderedMap.get?_insert]
        split <;> rfl
      waiting := fun _ => rfl
      lines := by simp [openContexts, placed, contexts]
      relatives := by simp [openContexts, placed, contexts] }

/-- Where nothing is found wrong there are records. -/
theorem records_of_found {program : List Line} {v : Snapshot}
    (hfault : (trace table use program).fault = none)
    (hlast : (trace table use program).snapshots.getLast? = some v) (hfound : v.found = []) :
    ∃ rs, v.records = some rs := by
  obtain ⟨s', -, hview⟩ := ((pass table use).trace_getLast?_eq_iff _ _ _ _).1 ⟨hfault, hlast⟩
  obtain ⟨os, -, rfl⟩ := (map_eq_ok_iff _ _ _).1 hview
  simp only at hfound
  exact ⟨os, by simp [hfound]⟩

/-- The records of a program that the pass accepts are those of its control sections, in which
nothing is wrong, and the symbols are the names of the sections. -/
theorem of_trace (ht : table.Sized .sectioned) {program : List Line} {v : Snapshot}
    {rs : List ObjectRecord} (hfault : (trace table use program).fault = none)
    (hlast : (trace table use program).snapshots.getLast? = some v) (hrs : v.records = some rs) :
    rs = (controlSections program).flatMap (recordsOf table) ∧
      (∀ sec ∈ controlSections program, SectionFits table use sec) ∧
      ∃ sections, v.symbols = .sectioned sections ∧
        ∀ k, (sections.get? k).map (fun ns => ns.get?) =
          tableOf (tablesOf .onePass table (controlSections program)) k := by
  obtain ⟨s', hrun, hview⟩ := ((pass table use).trace_getLast?_eq_iff _ _ _ _).1 ⟨hfault, hlast⟩
  obtain ⟨hf, hend, hrecords, hsymbols⟩ := view_close_clean hview hrs
  have hstepping := (pass table use).stepping_watched (State.stepping table use)
  obtain ⟨first, body, last, rest, s₀, s₁, rfl, hfirst, hb, hl, hstart, hc₀, hsteps, hfin, hc⟩ :=
    (runLines_program_iff hstepping rfl rfl 1 program).1 ⟨hrun, hf, hend⟩
  obtain ⟨-, rfl⟩ := (State.start_line_iff hfirst).1 ⟨(pass table use).step_of_watched hstart, hc₀⟩
  obtain ⟨done, opener, ls, hprogress, hsections⟩ := cleanSteps_controlSections (Progress table use)
    (fun h hl hsection hs hc => h.line ht hl hsection ((pass table use).step_of_watched hs) hc)
    (fun h hl hs hc => h.sectionLine hl ((pass table use).step_of_watched hs) hc)
      (Progress.start table use first) hb hsteps hl rest
  obtain ⟨hdrafts, htables, hfits⟩ :=
    hprogress.endLine ht hl ((pass table use).step_of_watched hfin) hc
  rw [hsections]
  refine ⟨?_, hfits, _, hsymbols, htables⟩
  rw [hdrafts, records_flatMap ht hfits] at hrecords
  exact (Except.ok.inj hrecords).symm

end Assembler.OnePass.Sectioned
