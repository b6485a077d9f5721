import Assembler.Proofs.SectionedPass

/-! # The sectioned programs that one pass accepts

`ProgramFits` lists what the pass asks of a program: a frame, sections with names of their own, rows
that fit and are settled, and entry addresses inside the sections.  A program is accepted if and
only if it is met (`accepted_iff`).  From left to right the run leaves the conditions behind line by
line (`Course`); from right to left each line can be taken in, because what its section asks of it
holds. -/

namespace Assembler.OnePass

open Assembler
set_option autoImplicit false

/-! ## Rows that are still to come -/

section

variable {table : OpTable} {x : String}

theorem firstEntry_append (N : NameTable) (rs rs' : List Row) : firstEntry table x N (rs ++ rs') =
    (firstEntry table x N rs).or
      (firstEntry table x (NameTable.afterRows .onePass table N rs) rs') := by
  induction rs generalizing N with
  | nil => rfl
  | cons r rs ih =>
    rw [List.cons_append, firstEntry, firstEntry]
    split
    · next h => rw [NameTable.label_self h, Option.some_or]
    · rw [ih]
      rfl

/-- The row with further rows behind it. -/
def RowContext.followedBy (rs : List Row) (c : RowContext) : RowContext :=
  { c with later := c.later ++ rs }

theorem RowContext.entryFor?_followedBy {c : RowContext} {e : Entry (Option Int)}
    (h : c.entryFor? table x = some e) (rs : List Row) :
    (c.followedBy rs).entryFor? table x = some e := by
  have hlater : firstEntry table x ((c.followedBy rs).after table) (c.followedBy rs).later = _ :=
    firstEntry_append (c.after table) c.later rs
  have hline : (c.followedBy rs).line = c.line := rfl
  have hhere : (c.followedBy rs).here = c.here := rfl
  unfold entryFor? at h ⊢
  rw [hlater, hline, hhere]
  split at h
  · next hexp => rw [if_pos hexp, h, Option.some_or]
  · next hexp => rw [if_neg hexp, ← Option.or_assoc, h, Option.some_or]

theorem contexts_followedBy (N : NameTable) (ps : List (Row × Int)) (rest : List Row) :
    contexts table N ps rest = (contexts table N ps []).map (·.followedBy rest) := by
  induction ps generalizing N with
  | nil => rfl
  | cons p ps ih => simp [contexts, ih, RowContext.followedBy]

theorem contexts_append_rows (N : NameTable) (ps qs : List (Row × Int)) (rest : List Row) :
    contexts table N (ps ++ qs) rest = contexts table N ps (qs.map (·.1) ++ rest) ++
      contexts table (NameTable.afterRows .onePass table N (ps.map (·.1))) qs rest := by
  induction ps generalizing N with
  | nil => rfl
  | cons p ps ih => simp [contexts, ih, NameTable.afterRows]

end

namespace Sectioned

variable {table : OpTable} {use : NameUse} {done : List ControlSection} {opener : Line}
  {cs : List RowContext} {N : NameTable} {a b : Int} {ls : List Line} {s s' : State} {l : Line}

/-! ## What a program is to meet -/

/-- An address at which one of some lines begins or the last one ends. -/
def Reaches (table : OpTable) (ls : List Line) (b : Int) : Prop :=
  ∃ pre, pre <+: ls ∧ extentOf .sectioned table pre = b

theorem reaches_nil : Reaches table [] b ↔ b = 0 := by
  constructor
  · intro ⟨pre, hpre, hb⟩
    rw [List.prefix_nil.1 hpre] at hb
    exact hb.symm
  · intro hb
    exact ⟨[], List.nil_prefix, hb.symm⟩

theorem reaches_concat :
    Reaches table (ls ++ [l]) b ↔ Reaches table ls b ∨
      b = extentOf .sectioned table (ls ++ [l]) := by
  unfold Reaches
  constructor
  · intro ⟨pre, hpre, hb⟩
    cases List.prefix_concat_iff.1 hpre with
    | inl hall => exact .inr (by rw [← hb, hall])
    | inr hpre => exact .inl ⟨pre, hpre, hb⟩
  · intro h
    cases h with
    | inl h =>
      obtain ⟨pre, hpre, hb⟩ := h
      exact ⟨pre, hpre.trans (List.prefix_append _ _), hb⟩
    | inr h => exact ⟨ls ++ [l], List.prefix_refl _, h.symm⟩

/-- What frames a section: it has a name, its labels stand in memory, and the directive that closes
it gives no address or one that the section reaches. -/
structure SectionFrame (table : OpTable) (sec : ControlSection) : Prop where
  named : sec.opener.name?.isSome = true
  labels : ∀ r ∈ sec.nameRows table, r.line.LabelFits r.address
  number : isOptionalNumber sec.closer.operands = true
  entry : Reaches table sec.body sec.entry

/-- What one pass asks of a program. -/
structure ProgramFits (table : OpTable) (use : NameUse) (program : List Line) : Prop where
  framed : ∃ first body last rest, program = first :: (body ++ last :: rest) ∧
    first.mnemonic = "START" ∧
    (∀ l ∈ body, l.mnemonic ≠ "START" ∧ l.mnemonic ≠ "END") ∧ last.mnemonic = "END"
  load : ∀ first ∈ program.head?, isOptionalNumber first.operands = true ∧
    (onlyNumber? first.operands).getD 0 = 0
  distinct : ((controlSections program).map fun sec => sec.opener.label).Nodup
  fits : ∀ sec ∈ controlSections program, SectionFits table use sec
  frames : ∀ sec ∈ controlSections program, SectionFrame table sec
  ends : ∀ sec ∈ (controlSections program).getLast?, InMemory (sec.length table)

/-! ## What a run leaves behind -/

/-- The pass after the sections `done` and the lines `ls` of the open one: besides the rows it keeps
the names of the sections and the addresses that the open one has reached. -/
structure Course (table : OpTable) (use : NameUse) (done : List ControlSection) (opener : Line)
    (ls : List Line) (s : State) : Prop where
  progress : Progress table use done opener ls s
  begun : s.begun = (done.map fun sec => sec.opener.label) ++ [opener.label]
  distinct : s.begun.Nodup
  visited : ∀ b, b ∈ s.visited ↔ Reaches table ls b
  named : opener.name?.isSome = true
  labels : ∀ r ∈ openRows table opener ls, r.line.LabelFits r.address
  closed : ∀ sec ∈ done, SectionFrame table sec

namespace State

theorem trail_of_noteLabel (h : s.noteLabel l = .ok s') (hf : s'.found = []) :
    l.LabelFits s.counter ∧ s'.counter = s.counter ∧ s'.visited = s.visited ∧
      s'.begun = s.begun := by
  unfold noteLabel at h
  split at h
  · next hx =>
    cases h
    exact ⟨fun hname => by simp [hx] at hname, rfl, rfl, rfl⟩
  · split at h
    · cases h
    · split at h
      · cases h
        simp [report] at hf
      · obtain ⟨hf, ds, -, waiting, -, rfl⟩ := fillWaiting_clean h hf
        have hrange := (List.append_eq_nil_iff.1 hf).2
        rw [Site.report_eq_nil_iff, rangeProblems_eq_nil_iff] at hrange
        exact ⟨fun _ => hrange, rfl, rfl, rfl⟩

theorem trail_of_bodyLine {stmt : Statement} (hstmt : stmt ≠ .finish)
    (h : s.bodyLine use stmt l = .ok s') (hf : s'.found = []) (hc : s.counter ∈ s.visited) :
    s'.begun = s.begun ∧ ∀ b, b ∈ s'.visited ↔ b ∈ s.visited ∨ b = s'.counter := by
  have hstay : ∀ b, b ∈ s.visited ↔ b ∈ s.visited ∨ b = s.counter := fun b =>
    ⟨.inl, fun h => h.elim id fun h => h ▸ hc⟩
  unfold bodyLine at h
  split at h
  · exact absurd rfl hstmt
  · obtain ⟨-, -, rfl⟩ := storageLine_clean h hf
    exact ⟨rfl, fun b => by simp [moveTo, add]⟩
  · obtain ⟨-, -, ns, x, -, -, -, rfl⟩ := exportLine_clean h hf
    exact ⟨rfl, hstay⟩
  · obtain ⟨-, -, ns, x, -, -, -, rfl⟩ := importLine_clean h hf
    exact ⟨rfl, hstay⟩
  · obtain ⟨-, -, -, r, -, hw⟩ := commandLine_clean h hf
    obtain ⟨sections, waiting, rfl⟩ := waitForAll_eq hw
    exact ⟨rfl, fun b => by simp⟩
  · cases h
    simp [report] at hf

theorem trail_of_line (hstarted : s.started = true) (hl : l.mnemonic ≠ "START" ∧ l.mnemonic ≠ "END")
    (hsection : l.mnemonic ≠ "CSECT") (h : s.line table use l = .ok s') (hf : s'.found = [])
    (hc : s.counter ∈ s.visited) :
    l.LabelFits s.counter ∧ s'.begun = s.begun ∧ ∀ b, b ∈ s'.visited ↔ b ∈ s.visited ∨
      b = s'.counter := by
  rw [line_eq hl.1 hsection, expectStarted, if_pos hstarted] at h
  cases hn : s.noteLabel l with
  | error x => simp [hn] at h
  | ok s₁ =>
    simp only [hn] at h
    obtain ⟨hlabel, hcounter, hvisited, hbegun⟩ := trail_of_noteLabel hn (frame_of_bodyLine h hf).1
    have hend : Statement.ofMnemonic .sectioned table l.mnemonic ≠ .finish := fun he =>
      hl.2 ((Statement.ofMnemonic_eq_finish_iff _ _ _).1 he)
    obtain ⟨hbegun', hvisited'⟩ :=
      trail_of_bodyLine hend h hf (by rw [hcounter, hvisited]; exact hc)
    rw [hvisited] at hvisited'
    exact ⟨hlabel, hbegun'.trans hbegun, hvisited'⟩

end State

theorem Course.counter_mem (h : Course table use done opener ls s) : s.counter ∈ s.visited := by
  rw [h.visited, h.progress.stage.counter]
  exact ⟨ls, List.prefix_refl _, rfl⟩

theorem Course.line (ht : table.Sized .sectioned) (h : Course table use done opener ls s)
    (hl : l.mnemonic ≠ "START" ∧ l.mnemonic ≠ "END") (hsection : l.mnemonic ≠ "CSECT")
    (hs : s.line table use l = .ok s') (hf : s'.found = []) :
    Course table use done opener (ls ++ [l]) s' := by
  have hprogress := h.progress.line ht hl hsection hs hf
  obtain ⟨hlabel, hbegun, hvisited⟩ :=
    State.trail_of_line h.progress.stage.started hl hsection hs hf h.counter_mem
  refine
    { progress := hprogress
      begun := hbegun.trans h.begun
      distinct := hbegun ▸ h.distinct
      visited := fun b => by rw [hvisited, h.visited, reaches_concat, hprogress.stage.counter]
      named := h.named
      labels := fun r hr => ?_
      closed := h.closed }
  rw [openRows_concat, List.mem_append, List.mem_singleton] at hr
  cases hr with
  | inl hr => exact h.labels r hr
  | inr hr =>
    rw [hr]
    rw [h.progress.stage.counter] at hlabel
    exact hlabel

theorem Course.sectionLine (h : Course table use done opener ls s) (hl : l.mnemonic = "CSECT")
    (hs : s.line table use l = .ok s') (hf : s'.found = []) :
    Course table use (done ++ [⟨opener, ls, l⟩]) l [] s' := by
  have hprogress := h.progress.sectionLine hl hs hf
  unfold State.line at hs
  rw [(Statement.ofMnemonic_eq_newSection_iff _ _).2 hl, State.expectStarted,
    if_pos h.progress.stage.started] at hs
  obtain ⟨-, -, ⟨hnumber, hname, hnew, hentry⟩, mods, ds, -, -, rfl⟩ :=
    State.sectionLine_clean_iff.1 ⟨hs, hf⟩
  have hframe : SectionFrame table ⟨opener, ls, l⟩ := by
    refine ⟨h.named, ?_, hnumber, ?_⟩
    · rw [ControlSection.nameRows_of_section table hl]
      exact h.labels
    · rw [State.entryPoint, h.progress.stage.origin, h.visited] at hentry
      exact hentry
  refine
    { progress := hprogress
      begun := by simp [h.begun]
      distinct := List.nodup_append.2 ⟨h.distinct, by simp, fun k hk k' hk' => ?_⟩
      visited := fun b => by rw [reaches_nil]; exact List.mem_singleton
      named := hname
      labels := by simp [openRows, placed]
      closed := fun sec hsec => ?_ }
  · intro hkk
    rw [List.mem_singleton.1 hk'] at hkk
    exact hnew (hkk ▸ hk)
  · cases List.mem_append.1 hsec with
    | inl hsec => exact h.closed sec hsec
    | inr hsec =>
      rw [List.mem_singleton.1 hsec]
      exact hframe

theorem Course.endLine (ht : table.Sized .sectioned) (h : Course table use done opener ls s)
    (hl : l.mnemonic = "END") (hs : s.line table use l = .ok s') (hf : s'.found = []) :
    s'.counter = extentOf .sectioned table ls ∧ SectionFrame table ⟨opener, ls, l⟩ := by
  rw [State.line_eq (by simp [hl]) (by simp [hl]), State.expectStarted,
    if_pos h.progress.stage.started] at hs
  cases hn : s.noteLabel l with
  | error x => simp [hn] at hs
  | ok s₂ =>
    simp only [hn, (Statement.ofMnemonic_eq_finish_iff .sectioned table _).2 hl] at hs
    have hs : s₂.endLine l = .ok s' := hs
    obtain ⟨hf₂, -, ⟨hnumber, hentry⟩, mods, ds, -, -, rfl⟩ := State.endLine_clean_iff.1 ⟨hs, hf⟩
    obtain ⟨-, hstage⟩ :=
      h.progress.stage.noteLabel ht (afterRows_of_mem_openContexts table opener ls) hn hf₂
    obtain ⟨hlabel, hcounter, hvisited, -⟩ := State.trail_of_noteLabel hn hf₂
    refine ⟨hstage.counter, h.named, fun r hr => ?_, hnumber, ?_⟩
    · rw [ControlSection.nameRows_of_end table hl, List.mem_append, List.mem_singleton] at hr
      cases hr with
      | inl hr => exact h.labels r hr
      | inr hr =>
        rw [hr]
        rw [h.progress.stage.counter] at hlabel
        exact hlabel
    · rw [State.entryPoint, hstage.origin, hvisited, h.visited] at hentry
      exact hentry

/-! ## Lines that can be taken in -/

theorem exists_settleAll {forgive : Fault → Bool} {scope : Scope} {ops : List Operand}
    (h : ∀ op ∈ ops, ∃ v, Draft.settle forgive scope op = .ok v) :
    ∃ vs, Draft.settleAll forgive scope ops = .ok vs := by
  induction ops with
  | nil => exact ⟨[], rfl⟩
  | cons op ops ih =>
    obtain ⟨v, hv⟩ := h op List.mem_cons_self
    obtain ⟨vs, hvs⟩ := ih fun o ho => h o (List.mem_cons_of_mem _ ho)
    exact ⟨v :: vs, by simp [Draft.settleAll, hv, hvs]⟩

theorem exists_fill_draft (ht : table.Sized .sectioned) {c : RowContext} {x : String}
    (hp : RowFits table use c.row) (hw : c.Awaits table x) {scope : Int → Scope}
    {forgive : Fault → Bool} {M : NameTable}
    (hk : ∀ next, (scope next).Knows (.ofEntries M next) fun _ => True) {e : Entry (Option Int)}
    (hM : M x = some e) {b : Int} (haddress : e.address = some b)
    (hrelative : c.line.operands = [.relative x] → e.linkage ≠ some .imported) :
    ∃ d, (c.draft table).fill forgive scope = .ok d := by
  have hops := hw.operands ht hp.fits
  have hopen : c.line.operands.map (·.settled (c.reading table)) = c.line.operands := by
    rcases hops with hops | hops <;>
      simp [hops, Operand.settled, Operand.value?, RowContext.reading, Reading.ofEntries, hw.2]
  have hsettle : ∀ next, ∃ vs, Draft.settleAll forgive (scope next) c.line.operands = .ok vs := by
    intro next
    apply exists_settleAll
    cases hops with
    | inl hops =>
      obtain ⟨v, hv⟩ : ∃ v, (Reading.ofEntries M next).direct x = some v := by
        by_cases himp : e.linkage = some .imported
        · exact ⟨0, by simp [Reading.ofEntries, hM, Entry.direct?, himp]⟩
        · exact ⟨b, by simp [Reading.ofEntries, hM, Entry.direct?, himp, haddress]⟩
      simp [hops, Draft.settle, Operand.value, (hk next).direct x v hv]
    | inr hops =>
      have hv : (Reading.ofEntries M next).relative x = some (displacement b next) := by
        simp [Reading.ofEntries, hM, Entry.relative?, hrelative hops, haddress]
      simp [hops, Draft.settle, Operand.value, (hk next).relative x _ hv]
  cases hw.1 with
  | inl hexp =>
    have hst := (Statement.ofMnemonic_eq_exportName_iff table _).2 hexp.1
    obtain ⟨vs, hvs⟩ := hsettle Draft.definitionSize
    exact ⟨_, by simp only [RowContext.draft, hst, hopen, Draft.fill, hvs, map_ok]; rfl⟩
  | inr href =>
    obtain ⟨op, hop⟩ := Option.isSome_iff_exists.1 href.1
    have hst := Line.operation?_eq_some_iff.1 hop
    obtain ⟨vs, hvs⟩ := hsettle (c.row.1.address + op.size)
    exact ⟨_, by simp only [RowContext.draft, hst, hopen, Draft.fill, hvs, map_ok]; rfl⟩

namespace State

theorem exists_fillPlaces {places : List (Option Nat)} (hf : s.found = []) {ds : List Draft}
    (h : changeAll s.fill places s.drafts = .ok ds) :
    ∃ s', s.fillPlaces places = .ok s' ∧ s'.found = [] := by
  induction places generalizing s with
  | nil => exact ⟨s, rfl, hf⟩
  | cons place places ih =>
    rw [changeAll] at h
    cases hat : changeAt s.fill place s.drafts with
    | error x => simp [hat] at h
    | ok ds₁ =>
      simp only [hat] at h
      have hstep : s.fillAt place = .ok { s with drafts := ds₁ } := by
        unfold changeAt at hat
        unfold fillAt
        simp only at hat ⊢
        split at hat
        · cases hat
        · next r hr =>
          obtain ⟨r', hr', rfl⟩ := (map_eq_ok_iff _ _ _).1 hat
          simp only [hr, hr']
      obtain ⟨s', hs', hf'⟩ := ih (s := { s with drafts := ds₁ }) hf h
      exact ⟨s', by simp [fillPlaces, hstep, hs'], hf'⟩

theorem exists_fillWaiting {x : String} (hf : s.found = []) {ds : List Draft}
    (h : changeAll s.fill ((s.waiting.get? x).getD []) s.drafts = .ok ds) :
    ∃ s', s.fillWaiting x = .ok s' ∧ s'.found = [] := by
  unfold fillWaiting
  cases hw : s.waiting.get? x with
  | none => exact ⟨s, rfl, hf⟩
  | some places =>
    rw [hw, Option.getD_some] at h
    obtain ⟨s', hs', hf'⟩ := exists_fillPlaces hf h
    exact ⟨{ s' with waiting := s'.waiting.erase x }, by simp [hs'], hf'⟩

theorem exists_waitForAll {ns : SectionNames (Option Int)}
    (hns : s.sections.get? s.current = some ns) (ops : List Operand) :
    ∃ s', s.waitForAll ops = .ok s' := by
  induction ops generalizing s ns with
  | nil => exact ⟨s, rfl⟩
  | cons op ops ih =>
    rw [waitForAll, waitFor]
    cases op.referredName? with
    | none => exact ih hns
    | some x =>
      simp only [names_eq_ok_iff.2 hns, map_ok]
      split
      · exact ih hns
      · have hns' :
            (s.setNames (ns.insert x ⟨none, none⟩)).sections.get?
              (s.setNames (ns.insert x ⟨none, none⟩)).current =
                some (ns.insert x ⟨none, none⟩) := by simp [setNames]
        exact ih hns'

theorem exists_modificationDrafts {ns : SectionNames (Option Int)}
    (hns : s.sections.get? s.current = some ns) {ms : List (Int × String)}
    (h : ∀ m ∈ ms, (ns.get? m.2).isSome = true) : ∃ ds, s.modificationDrafts ms = .ok ds := by
  induction ms with
  | nil => exact ⟨[], rfl⟩
  | cons m ms ih =>
    obtain ⟨e, he⟩ := Option.isSome_iff_exists.1 (h m List.mem_cons_self)
    obtain ⟨ds, hds⟩ := ih fun m' hm' => h m' (List.mem_cons_of_mem _ hm')
    exact ⟨_, by simp only [modificationDrafts, names_eq_ok_iff.2 hns, he, hds, map_ok]; rfl⟩

/-- Where there is no section with the given label, no name is known. -/
theorem scope_absent {k : Option String} (h : s.sections.get? k = none) (next : Int) :
    (s.scope k next).Knows ⟨fun _ => none, fun _ => none⟩ Fault.IsUndefinedName := by
  have hentry : ∀ x, ∃ y, (Directory.ofSections s.sections).entry k x = .error y := by
    intro x
    simp only [Directory.ofSections, Directory.entry, OrderedMap.get?_mapValues, h, Option.map_none]
    split <;> exact ⟨_, rfl⟩
  refine ⟨by simp, by simp, fun x _ => ⟨.undefinedName dialect .direct x, ?_, _, _, _, rfl⟩,
    fun x _ => ⟨.undefinedName dialect .relative x, ?_, _, _, _, rfl⟩⟩
  · obtain ⟨y, hy⟩ := hentry x
    simp only [scope, Scope.ofDialect, dialect, Scope.linkedDirect, hy]
  · obtain ⟨y, hy⟩ := hentry x
    simp only [scope, Scope.ofDialect, dialect, Scope.linkedRelative, hy]

theorem exists_settle_direct (k : Option String) (next : Int) (x : String) :
    ∃ v, Draft.settle isUndefined (s.scope k next) (.direct x) = .ok v := by
  simp only [Draft.settle, Operand.value, scope, Scope.ofDialect, dialect, Scope.linkedDirect]
  split
  · exact ⟨_, rfl⟩
  · exact ⟨_, rfl⟩
  · next y hy =>
    split at hy
    · split at hy
      · cases hy
      · split at hy
        · cases hy
          exact ⟨_, rfl⟩
        · cases hy
    · cases hy
      exact ⟨_, rfl⟩

theorem exists_settle_relative {k : Option String} {ns : SectionNames (Option Int)}
    (hns : s.sections.get? k = some ns) {x : String} (h : ¬ NameTable.Imported ns.get? x)
    (next : Int) :
    ∃ v, Draft.settle isUndefined (s.scope k next) (.relative x) = .ok v := by
  simp only [Draft.settle, Operand.value, scope, Scope.ofDialect, dialect, Scope.linkedRelative,
    Directory.entry_ofSections hns]
  cases hx : ns.get? x with
  | none => exact ⟨_, rfl⟩
  | some e =>
    have himp : e.linkage ≠ some .imported := by
      simpa [NameTable.Imported, NameTable.linkage?, hx] using h
    cases ha : e.address <;> simp [himp, ha, Value.ofAddress?, isUndefined]

theorem exists_fill_code {ns : SectionNames (Option Int)}
    (hns : s.sections.get? s.current = some ns) {size : Int} {ops : List Operand}
    (hadm : Admitted size ops) (hlegible : ∀ o ∈ ops, o.Legible)
    (hrelative : ∀ x, ops = [.relative x] → ¬ NameTable.Imported ns.get? x) (a : Int)
    (byte : Option Int) :
    ∃ r, s.fill (.code a size byte ops) = .ok r := by
  have hsettle :
      ∀ o ∈ ops, ∃ v, Draft.settle isUndefined (s.scope s.current (a + size)) o = .ok v := by
    intro o ho
    cases o with
    | direct x => exact exists_settle_direct _ _ x
    | relative x =>
      rcases hadm.reference ho rfl with ⟨hops, -⟩ | ⟨hops, -⟩
      · simp [hops] at ho
      · exact exists_settle_relative hns (hrelative x hops) _
    | number v => exact ⟨_, rfl⟩
    | register i => exact ⟨_, rfl⟩
    | chars t =>
      obtain ⟨v, hv⟩ := hlegible _ ho rfl
      rw [Operand.stringValue] at hv
      exact ⟨.number v, by simp [Draft.settle, Operand.value, hv]⟩
    | hex t =>
      obtain ⟨v, hv⟩ := hlegible _ ho rfl
      rw [Operand.stringValue] at hv
      exact ⟨.number v, by simp [Draft.settle, Operand.value, hv]⟩
  obtain ⟨vs, hvs⟩ := exists_settleAll hsettle
  exact ⟨.code a size byte vs, by simp [fill, Draft.fill, hvs]⟩

theorem exists_noteModified {size : Int} {ops : List Operand} (hadm : Admitted size ops) :
    ∃ modified, s.noteModified ops = .ok { s with modified } := by
  unfold noteModified
  split
  · next hd =>
    have htext : ops.all Operand.hasText = true := by
      cases hadm with
      | character op hop => cases op <;> cases hop <;> rfl
      | text op v hop => cases op <;> cases hop <;> rfl
      | byte v => simp [Addressing.ofOperands, Operand.kind] at hd
      | number v => simp [Addressing.ofOperands, Operand.kind] at hd
      | _ => rfl
    exact ⟨_, by rw [if_pos htext]⟩
  · exact ⟨s.modified, rfl⟩

end State

/-- A label can be noted if it has no address yet and stands in memory, and no distance to it is
asked for as to an imported name. -/
theorem Stage.exists_noteLabel (ht : table.Sized .sectioned)
    (h : Stage table use done opener cs N a s)
    (hN : ∀ c ∈ cs, NameTable.afterRows .onePass table (c.after table) c.later = N)
    (hfree : ∀ x, l.name? = some x → N.address? x = none) (hlabel : l.LabelFits a)
    (hrelative : ∀ c ∈ cs, ∀ x, c.line.operands = [.relative x] →
      ∀ e, (c.extend ⟨a, l, opener.label⟩).entryFor? table x = some e →
      e.linkage ≠ some .imported) :
    ∃ s', s.noteLabel l = .ok s' ∧ s'.found = [] := by
  obtain ⟨ns, hns, hget⟩ := h.names
  cases hx : l.name? with
  | none => exact ⟨s, by simp [State.noteLabel, hx], h.found⟩
  | some x =>
    have hmem : InMemory s.counter := by
      rw [h.counter]
      exact hlabel (by simp [hx])
    have haddress : (ns.get? x).bind (·.address) = none := by
      have hfree := hfree x hx
      rwa [← hget] at hfree
    have hnote : s.noteLabel l = (s.setAddress ns x).fillWaiting x := by
      simp [State.noteLabel, hx, State.names_eq_ok_iff.2 hns, haddress,
        (rangeProblems_eq_nil_iff _ _).2 hmem, State.report]
    have hns' : (s.setAddress ns x).sections.get? (s.setAddress ns x).current =
        some (ns.insert x ⟨some s.counter, (ns.get? x).bind (·.linkage)⟩) := by
      simp [State.setAddress, State.setNames]
    have hplaces :
        ((s.setAddress ns x).waiting.get? x).getD [] = placesWhere (RowContext.Awaits table x)
          (done.flatMap (draftsOf table) ++ [Draft.header opener.label 0 none]).length cs := by
      have hw : (s.setAddress ns x).waiting.get? x = _ := h.waiting x
      rw [hw, h.headerPlace, List.length_append, List.length_singleton]
      split
      · next hnil => rw [hnil]; rfl
      · rfl
    have hfill : ∀ c ∈ cs, ∀ r, r = c.draft table → c.Awaits table x →
        ∃ r', (s.setAddress ns x).fill r = .ok r' ∧ True := by
      intro c hc r hr hw
      subst hr
      have hentry :
          (c.extend ⟨a, l, opener.label⟩).entryFor? table x = some ⟨some a, N.linkage? x⟩ := by
        rw [RowContext.entryFor?_extend, hw.2, if_pos hx, hN c hc, Option.none_or,
          NameTable.label_self hx]
      obtain ⟨d, hd⟩ : ∃ d, (s.setAddress ns x).fill (c.draft table) = .ok d := by
        refine exists_fill_draft ht (h.lines c hc) hw (fun next => Stage.knows hns' next)
          (e := ⟨some s.counter, (ns.get? x).bind (·.linkage)⟩) (by simp) rfl fun hops => ?_
        have hlinkage := hrelative c hc x hops _ hentry
        rwa [← hget] at hlinkage
      exact ⟨d, hd, trivial⟩
    obtain ⟨rs', hrs', -⟩ : ∃ rs', _ ∧ List.Forall₂ (fun _ _ => True) cs rs' :=
      changeAll_placesWhere hfill (fun _ _ _ _ _ => trivial)
      (done.flatMap (draftsOf table) ++ [Draft.header opener.label 0 none])
      (List.forall₂_map_right_iff.2 (List.forall₂_same.2 fun c _ => rfl) :
        List.Forall₂ (fun c r => r = RowContext.draft table c) cs (cs.map (·.draft table)))
    rw [hnote]
    have hdrafts :
        (s.setAddress ns x).drafts =
          (done.flatMap (draftsOf table) ++ [Draft.header opener.label 0 none]) ++
            cs.map (·.draft table) := by
      rw [List.append_assoc]
      exact h.drafts
    rw [← hplaces, ← hdrafts] at hrs'
    exact State.exists_fillWaiting h.found hrs'

theorem Stage.exists_bodyLine (ht : table.Sized .sectioned)
    (h : Stage table use done opener cs (N.label a l) a s)
    (hnamed : s.sections.get? (some "") = none)
    (hp : RowFits table use (freshContext table opener N a l).row) (htakes : N.Takes l)
    (hrelative : ∀ x, l.operands = [.relative x] →
      ∀ e, (freshContext table opener N a l).entryFor? table x = some e →
      e.linkage ≠ some .imported) :
    ∃ s', s.bodyLine use (Statement.ofMnemonic .sectioned table l.mnemonic) l = .ok s' ∧
      s'.found = [] := by
  obtain ⟨ns, hns, hget⟩ := h.names
  have hfits : l.LinkFits table use a := hp.fits
  rcases hfits with hfit | ⟨hm | hm, hname, x, hx⟩
  · rcases hfit.cases with ⟨kind, al, hst, hal, hproblems⟩ | ⟨op, hst, hproblems, huse⟩
    · rw [← h.counter] at hal
      rw [hst]
      refine ⟨((s.report al.problems).add (.ofAllotment al s.counter)).moveTo (s.counter + al.size),
        ?_, ?_⟩
      · simp [State.bodyLine, State.storageLine, hal, hproblems]
      · simp [State.moveTo, State.add, State.report, hproblems, h.found]
    · have hadm := hfit.admitted ht hst
      have hlegible : ∀ o ∈ l.operands, o.Legible := hp.legible op hst
      rw [← h.counter] at hproblems
      have hentry := entryFor?_freshContext hst opener N a
      have hdistance : ∀ x, l.operands = [.relative x] → ¬ NameTable.Imported ns.get? x := by
        intro x hops himp
        rw [hget, NameTable.Imported, NameTable.linkage?, ← hentry] at himp
        obtain ⟨e, he, himp⟩ := Option.bind_eq_some_iff.1 himp
        exact hrelative x hops e he himp
      obtain ⟨f, hin⟩ :=
        Field.pending_isOk (State.scope_absent hnamed (s.counter + op.size)) hlegible
          (FieldWidth.ofResolved? op.size l.operands)
      obtain ⟨r, hr⟩ :=
        State.exists_fill_code hns hadm hlegible hdistance s.counter
          (some (codeByte op.opcode l.operands))
      have hadd :
          s.addCommand (.code s.counter op.size (some (codeByte op.opcode l.operands)) l.operands) =
            s.add r := by
        rw [State.addCommand, hr]
      obtain ⟨modified, hmodified⟩ := State.exists_noteModified (s := s.add r) hadm
      obtain ⟨s', hs'⟩ :=
        State.exists_waitForAll
          (s := ({ s.add r with modified }.moveTo (s.counter + op.size)).report []) hns l.operands
      refine ⟨s', ?_,
        (State.found_of_waitForAll hs').trans
          (by simp [State.report, State.moveTo, State.add, h.found])⟩
      have hin :
          Field.inOnePass dialect (s.scope (some "") (s.counter + op.size)) op.size l.operands =
            .ok f := hin
      have hnone : s.report [] = s := by simp [State.report]
      simp only [hst, State.bodyLine, State.commandLine, hproblems, hin, hnone, hadd,
        hmodified, huse]
      exact hs'
  · have hst := (Statement.ofMnemonic_eq_exportName_iff table _).2 hm
    have hexports : l.Exports x := ⟨hm, onlyName?_eq_some_iff.2 hx⟩
    have hfree : (ns.get? x).bind (·.linkage) = none := by
      have hlinkage := (htakes.linkage x (.inl hexports)).2
      rwa [← NameTable.linkage?_label N a l, ← hget] at hlinkage
    have hmark : (s.markExported ns x).found = [] := by
      unfold State.markExported
      cases he : ns.get? x with
      | none => exact h.found
      | some e =>
        have hlinkage : e.linkage = none := by simpa [he] using hfree
        simp only [hlinkage, if_true]
        exact h.found
    refine ⟨{ (s.markExported ns x).add (.definition (.direct x) [.direct x]) with
      waiting := ((s.markExported ns x).add (.definition (.direct x) [.direct x])).waiting.add x
        (lastPlace ((s.markExported ns x).add (.definition (.direct x) [.direct x])).drafts.length)
          }, ?_, hmark⟩
    simp [hst, State.bodyLine, State.exportLine, State.linkedName?, hname, hexports.2,
      State.names_eq_ok_iff.2 hns]
  · have hst := (Statement.ofMnemonic_eq_importName_iff table _).2 hm
    have himports : l.Imports x := ⟨hm, onlyName?_eq_some_iff.2 hx⟩
    have hfree : (ns.get? x).bind (·.linkage) = none := by
      have hlinkage := (htakes.linkage x (.inr himports)).2
      rwa [← NameTable.linkage?_label N a l, ← hget] at hlinkage
    refine ⟨(s.setNames (ns.insert x ⟨none, some .imported⟩)).add (.reference x), ?_, h.found⟩
    simp [hst, State.bodyLine, State.importLine, State.linkedName?, hname, himports.2,
      State.names_eq_ok_iff.2 hns, hfree, State.report]

/-! ## Sections that can be taken in -/

theorem Progress.exists_view (ht : table.Sized .sectioned)
    (h : Progress table use done opener ls s) :
    ∃ v, s.view = .ok v := by
  have hdone := Draft.records_eq_ok_iff.1 (records_flatMap ht h.closed)
  have hopen : List.Forall₂ (fun r o => r.record dialect = .ok o)
      (.header opener.label 0 none :: (openContexts table opener ls).map (·.draft table))
      (.header opener.label 0 none :: (openContexts table opener ls).map (·.record table)) := by
    refine .cons rfl ?_
    rw [List.forall₂_map_left_iff, List.forall₂_map_right_iff, List.forall₂_same]
    exact fun c hc => RowContext.record_draft ht (h.stage.lines c hc)
  have hall := List.rel_append hdone hopen
  exact ⟨_, by rw [State.view, h.stage.drafts, Draft.records_eq_ok_iff.2 hall]; rfl⟩

theorem openContexts_concat (table : OpTable) (opener : Line) (ls : List Line) (l : Line) :
    openContexts table opener (ls ++ [l]) =
      (openContexts table opener ls).map
        (·.extend ⟨extentOf .sectioned table ls, l, opener.label⟩) ++
          [freshContext table opener
            (NameTable.afterRows .onePass table (fun _ => none) (openRows table opener ls))
              (extentOf .sectioned table ls) l] := by
  rw [openContexts, placed_append, Int.zero_add]
  exact contexts_concat table _ _ _

theorem SectionFits.of_cut {closer : Line} {post : List Line}
    (h : SectionFits table use ⟨opener, ls ++ l :: post, closer⟩) :
    (NameTable.afterRows .onePass table (fun _ => none) (openRows table opener ls)).Takes l ∧
      ∀ c ∈ openContexts table opener (ls ++ [l]), RowFits table use c.row ∧
      ∀ x, c.line.operands = [.relative x] →
        ∀ e, c.entryFor? table x = some e → e.linkage ≠ some .imported := by
  obtain ⟨qs, hqs⟩ : ∃ qs, placed .sectioned table opener.label 0 (ls ++ l :: post) =
      placed .sectioned table opener.label 0 (ls ++ [l]) ++ qs := by
    rw [List.append_cons, placed_append]
    exact ⟨_, rfl⟩
  constructor
  · refine h.taken (openRows table opener ls) ⟨extentOf .sectioned table ls, l, opener.label⟩
      (qs.map (·.1) ++ ControlSection.endRows table ⟨opener, ls ++ l :: post, closer⟩) ?_
    have hrows : ControlSection.nameRows table ⟨opener, ls ++ l :: post, closer⟩ =
        openRows table opener (ls ++ [l]) ++
          (qs.map (·.1) ++ ControlSection.endRows table ⟨opener, ls ++ l :: post, closer⟩) := by
      rw [ControlSection.nameRows, ControlSection.rows, hqs, List.map_append, List.append_assoc]
      rfl
    rw [hrows, openRows_concat, List.append_assoc]
    rfl
  · intro c hc
    have hmem :
        c.followedBy
          (qs.map (·.1) ++ ControlSection.endRows table ⟨opener, ls ++ l :: post, closer⟩) ∈
            contextsOf table ⟨opener, ls ++ l :: post, closer⟩ := by
      rw [contextsOf, ControlSection.rows, hqs, contexts_append_rows, contexts_followedBy]
      exact List.mem_append_left _ (List.mem_map_of_mem hc)
    have hrow := h.rows _ hmem
    exact ⟨hrow, fun x hx e he => h.relatives _ hmem x hx e (RowContext.entryFor?_followedBy he _)⟩

theorem label_ne_empty (h : l.name?.isSome = true) : l.label ≠ some "" := by
  intro hlabel
  simp [Line.name?, hlabel] at h

/-- No section has the empty label. -/
theorem Course.unlabelled (h : Course table use done opener ls s)
    (hs : Stage table use done opener cs N a s') :
    s'.sections.get? (some "") = none := by
  have htable := hs.tables (some "")
  rw [tableOf_eq_none, Option.map_eq_none_iff] at htable
  · exact htable
  · intro hmem
    rw [List.map_append, List.mem_append, tablesOf, List.map_map] at hmem
    cases hmem with
    | inl hmem =>
      obtain ⟨sec, hsec, hlabel⟩ := List.mem_map.1 hmem
      exact label_ne_empty (h.closed sec hsec).named hlabel
    | inr hmem => exact label_ne_empty h.named (List.mem_singleton.1 hmem).symm

theorem Course.exists_line (ht : table.Sized .sectioned) (h : Course table use done opener ls s)
    (hl : l.mnemonic ≠ "START" ∧ l.mnemonic ≠ "END") (hsection : l.mnemonic ≠ "CSECT")
    {closer : Line} {post : List Line}
    (hfits : SectionFits table use ⟨opener, ls ++ l :: post, closer⟩)
    (hframe : SectionFrame table ⟨opener, ls ++ l :: post, closer⟩) :
    ∃ s', s.line table use l = .ok s' ∧ s'.found = [] := by
  have hN := afterRows_of_mem_openContexts table opener ls
  obtain ⟨htakes, hrows⟩ := hfits.of_cut
  rw [openContexts_concat] at hrows
  have hlabel : l.LabelFits (extentOf .sectioned table ls) := by
    refine hframe.labels ⟨extentOf .sectioned table ls, l, opener.label⟩ (List.mem_append_left _ ?_)
    rw [ControlSection.rows, placed_append, List.map_append, Int.zero_add]
    exact List.mem_append_right _ List.mem_cons_self
  obtain ⟨s₁, hn, hf₁⟩ :=
    h.progress.stage.exists_noteLabel ht hN htakes.label hlabel fun c hc x hx e he =>
    (hrows _ (List.mem_append_left _ (List.mem_map_of_mem hc))).2 x hx e he
  obtain ⟨-, hstage⟩ := h.progress.stage.noteLabel ht hN hn hf₁
  obtain ⟨hp, hrelative⟩ := hrows _ (List.mem_append_right _ (List.mem_singleton_self _))
  rw [State.line_eq hl.1 hsection, State.expectStarted, if_pos h.progress.stage.started, hn]
  exact hstage.exists_bodyLine ht (h.unlabelled hstage) hp htakes hrelative

theorem Stage.waiting_keys (h : Stage table use done opener cs N a s)
    (hc : ∀ c ∈ cs, ∀ x, ¬ c.Awaits table x) :
    s.waiting.keys = [] := by
  rw [List.eq_nil_iff_forall_not_mem]
  intro x hx
  rw [OrderedMap.mem_keys_iff, h.waiting,
    if_pos ((placesWhere_eq_nil_iff _ _ _).2 fun c hmem => hc c hmem x)] at hx
  cases hx

theorem Stage.exists_modificationDrafts (ht : table.Sized .sectioned)
    (h : Stage table use done opener cs N a s)
    (hmet : ∀ c ∈ cs, ∀ x, c.line.RefersTo table x → (N x).isSome = true) :
    ∃ mods, s.modificationDrafts s.modified = .ok mods := by
  obtain ⟨ns, hns, hget⟩ := h.names
  apply State.exists_modificationDrafts hns
  intro m hm
  rw [h.modified] at hm
  obtain ⟨p, hp, hm⟩ := List.mem_flatMap.1 hm
  obtain ⟨c, hc, rfl⟩ := List.mem_map.1 hp
  unfold modifiedNames at hm
  split at hm
  · next op hst =>
    split at hm
    · next hdirect =>
      have hadm := (h.lines c hc).fits.admitted ht hst
      obtain ⟨x, hx⟩ := Option.isSome_iff_exists.1 (hadm.addressing_eq_direct_iff.1 hdirect)
      have hlist := hadm.toList_directName?
      rw [if_pos hdirect, hx] at hlist
      obtain ⟨o, ho, rfl⟩ := List.mem_map.1 hm
      have hname : o.text = x := by
        have hmem := List.mem_map_of_mem (f := Operand.text) ho
        rw [hlist] at hmem
        exact List.mem_singleton.1 hmem
      have hops := hadm.operands_of_directName? hx
      rw [hget, hname]
      refine hmet c hc x ⟨by rw [Line.operation?_eq_some_iff.2 hst]; rfl, by rw [hops]; rfl⟩
    · cases hm
  · cases hm

theorem Stage.exists_setLength (h : Stage table use done opener cs N a s) (mods : List Draft) :
    ∃ ds, changeAt (fun r => .ok (r.setLength (s.counter - s.origin))) (some s.headerPlace)
      (s.drafts ++ mods) = .ok ds := by
  rw [h.drafts, List.append_assoc, List.cons_append, h.headerPlace, changeAt_append]
  exact ⟨_, rfl⟩

theorem Course.met (table : OpTable) (opener : Line) (ls : List Line) {c : RowContext}
    (hc : c ∈ openContexts table opener ls) {x : String} (hx : c.line.RefersTo table x) :
    (NameTable.afterRows .onePass table (fun _ => none) (openRows table opener ls) x).isSome =
      true := by
  refine NameTable.isSome_afterRows.2 (.inr ⟨c.row.1, ?_, .inr (.inr (.inr ⟨rfl, hx⟩))⟩)
  have hrow : c.row ∈ placed .sectioned table opener.label 0 ls := by
    rw [← contexts_map_row table (fun _ => none) (placed .sectioned table opener.label 0 ls) []]
    exact List.mem_map_of_mem hc
  exact List.mem_map_of_mem hrow

theorem Course.exists_sectionLine (ht : table.Sized .sectioned)
    (h : Course table use done opener ls s) (hl : l.mnemonic = "CSECT")
    (hname : l.name?.isSome = true) (hnew : l.label ∉ s.begun)
    (hfits : SectionFits table use ⟨opener, ls, l⟩) (hframe : SectionFrame table ⟨opener, ls, l⟩) :
    ∃ s', s.line table use l = .ok s' ∧ s'.found = [] := by
  have hstage := h.progress.stage
  have hsettled := hfits.settled
  rw [contextsOf_of_section table opener ls hl] at hsettled
  obtain ⟨mods, hmods⟩ :=
    hstage.exists_modificationDrafts ht fun c hc x hx => Course.met table opener ls hc hx
  obtain ⟨ds, hds⟩ := hstage.exists_setLength mods
  have hentry : s.entryPoint l ∈ s.visited := by
    rw [State.entryPoint, hstage.origin, h.visited]
    exact hframe.entry
  unfold State.line
  rw [(Statement.ofMnemonic_eq_newSection_iff _ _).2 hl, State.expectStarted, if_pos hstage.started]
  exact ⟨_, State.sectionLine_clean_iff.2 ⟨hstage.found, hstage.waiting_keys hsettled,
    ⟨hframe.number, hname, hnew, hentry⟩, mods, ds, hmods, hds, rfl⟩⟩

theorem Course.exists_endLine (ht : table.Sized .sectioned) (h : Course table use done opener ls s)
    (hl : l.mnemonic = "END") (hfits : SectionFits table use ⟨opener, ls, l⟩)
    (hframe : SectionFrame table ⟨opener, ls, l⟩) :
    ∃ s', s.line table use l = .ok s' ∧ s'.found = [] := by
  have hN := afterRows_of_mem_openContexts table opener ls
  have hst := (Statement.ofMnemonic_eq_finish_iff .sectioned table _).2 hl
  have hcs := contextsOf_of_end table opener ls hl
  have hsettled := hfits.settled
  have hrelatives := hfits.relatives
  have hlabels := hframe.labels
  have htaken := hfits.taken
  rw [hcs] at hsettled hrelatives
  rw [ControlSection.nameRows_of_end table hl] at hlabels htaken
  have htakes := htaken (openRows table opener ls) _ [] rfl
  obtain ⟨s₁, hn, hf₁⟩ := h.progress.stage.exists_noteLabel ht hN htakes.label
    (hlabels _ (List.mem_append_right _ (List.mem_singleton_self _)))
    fun c hc x hx e he => hrelatives _ (List.mem_map_of_mem hc) x hx e he
  obtain ⟨-, hstage⟩ := h.progress.stage.noteLabel ht hN hn hf₁
  obtain ⟨-, -, hvisited, -⟩ := State.trail_of_noteLabel hn hf₁
  obtain ⟨mods, hmods⟩ := hstage.exists_modificationDrafts ht fun c hc x hx => by
    obtain ⟨d, hd, rfl⟩ := List.mem_map.1 hc
    have hmet := Course.met table opener ls hd hx
    rw [NameTable.label]
    split
    · rfl
    · exact hmet
  obtain ⟨ds, hds⟩ := hstage.exists_setLength []
  rw [List.append_nil] at hds
  have hentry : s₁.entryPoint l ∈ s₁.visited := by
    rw [State.entryPoint, hstage.origin, hvisited, h.visited]
    exact hframe.entry
  rw [State.line_eq (by simp [hl]) (by simp [hl]), State.expectStarted,
    if_pos h.progress.stage.started, hn, hst]
  exact ⟨_, State.endLine_clean_iff.2 ⟨hstage.found, hstage.waiting_keys hsettled,
    ⟨hframe.number, hentry⟩, mods, ds, hmods, hds, rfl⟩⟩

/-! ## Programs -/

theorem exists_cons_sectionsFrom (opener : Line) (body : List Line) {last : Line} (rest : List Line)
    (hlast : last.mnemonic = "END") :
    ∃ post closer secs, sectionsFrom opener (body ++ last :: rest) = ⟨opener, post, closer⟩ ::
      secs := by
  induction body with
  | nil => exact ⟨[], last, [], by simp [sectionsFrom, hlast]⟩
  | cons l body ih =>
    obtain ⟨post, closer, secs, hcut⟩ := ih
    rw [List.cons_append, sectionsFrom]
    split
    · exact ⟨[], l, [], rfl⟩
    · split
      · exact ⟨[], l, _, rfl⟩
      · rw [hcut]
        exact ⟨l :: post, closer, secs, rfl⟩

theorem Course.exists_run (ht : table.Sized .sectioned) {body : List Line} {last : Line}
    (rest : List Line) (hbody : ∀ l ∈ body, l.mnemonic ≠ "START" ∧ l.mnemonic ≠ "END")
    (hlast : last.mnemonic = "END") (h : Course table use done opener ls s)
    (hsecs : ∀ sec ∈ prependBody ls (sectionsFrom opener (body ++ last :: rest)),
      SectionFits table use sec ∧ SectionFrame table sec)
    (hdistinct :
      ((done ++ prependBody ls (sectionsFrom opener (body ++ last :: rest))).map fun sec =>
        sec.opener.label).Nodup)
    (n : Nat) :
    ∃ s₁ s', CleanSteps (pass table use).watched (fun s => s.found = []) s n body s₁ ∧
      (pass table use).watched s₁ (n + body.length) last = .ok s' ∧ s'.found = [] := by
  induction body generalizing done opener ls s n with
  | nil =>
    rw [List.nil_append, sectionsFrom, if_pos hlast, prependBody, List.append_nil] at hsecs
    obtain ⟨hfits, hframe⟩ := hsecs _ (List.mem_singleton_self _)
    obtain ⟨s', hs', hf'⟩ := h.exists_endLine ht hlast hfits hframe
    refine ⟨s, s', rfl, ?_, hf'⟩
    rw [Pass.watched_of_not_shows _ (showsAfter_eq_false table (.inr hlast))]
    exact hs'
  | cons l body ih =>
    have hl := hbody l List.mem_cons_self
    have hrest := fun k hk => hbody k (List.mem_cons_of_mem _ hk)
    have hcount : n + 1 + body.length = n + (l :: body).length := by rw [List.length_cons]; omega
    rw [List.cons_append, sectionsFrom, if_neg hl.2] at hsecs hdistinct
    by_cases hsection : l.mnemonic = "CSECT"
    · rw [if_pos hsection, prependBody, List.append_nil] at hsecs hdistinct
      obtain ⟨hfits, hframe⟩ := hsecs _ List.mem_cons_self
      obtain ⟨post, closer, secs, hcut⟩ := exists_cons_sectionsFrom l body rest hlast
      have hnext :
          (⟨l, post, closer⟩ : ControlSection) ∈ sectionsFrom l (body ++ last :: rest) := by
            rw [hcut]; simp
      have hname : l.name?.isSome = true := (hsecs _ (List.mem_cons_of_mem _ hnext)).2.named
      have hnew : l.label ∉ s.begun := by
        rw [h.begun]
        rw [hcut, List.map_append, List.nodup_append] at hdistinct
        obtain ⟨-, hlater, hapart⟩ := hdistinct
        intro hmem
        cases List.mem_append.1 hmem with
        | inl hmem => exact hapart _ hmem l.label (by simp) rfl
        | inr hmem =>
          rw [List.map_cons, List.nodup_cons] at hlater
          exact hlater.1 (by rw [← List.mem_singleton.1 hmem]; simp)
      obtain ⟨s₀, hs₀, hf₀⟩ := h.exists_sectionLine ht hsection hname hnew hfits hframe
      have hcourse := h.sectionLine hsection hs₀ hf₀
      obtain ⟨s₁, s', hsteps, hs', hf'⟩ := ih hrest hcourse
        (by rw [prependBody_nil]; exact fun sec hsec => hsecs sec (List.mem_cons_of_mem _ hsec))
        (by rw [prependBody_nil, List.append_assoc]; exact hdistinct) (n + 1)
      refine ⟨s₁, s', ⟨s₀, ?_, hf₀, hsteps⟩, by rwa [hcount] at hs', hf'⟩
      rw [Pass.watched_eq_ok_iff]
      refine ⟨hs₀, fun hshows => ?_⟩
      simp [pass, showsAfter, (Statement.ofMnemonic_eq_newSection_iff _ _).2 hsection] at hshows
    · rw [if_neg hsection, ← prependBody_append] at hsecs hdistinct
      obtain ⟨post, closer, secs, hcut⟩ := exists_cons_sectionsFrom opener body rest hlast
      have hmem : (⟨opener, ls ++ l :: post, closer⟩ : ControlSection) ∈
          prependBody (ls ++ [l]) (sectionsFrom opener (body ++ last :: rest)) := by
        rw [hcut, prependBody, List.append_assoc]
        exact List.mem_cons_self
      obtain ⟨hfits, hframe⟩ := hsecs _ hmem
      obtain ⟨s₀, hs₀, hf₀⟩ := h.exists_line ht hl hsection hfits hframe
      have hcourse := h.line ht hl hsection hs₀ hf₀
      obtain ⟨s₁, s', hsteps, hs', hf'⟩ := ih hrest hcourse hsecs hdistinct (n + 1)
      refine ⟨s₁, s', ⟨s₀, ?_, hf₀, hsteps⟩, by rwa [hcount] at hs', hf'⟩
      rw [Pass.watched_eq_ok_iff]
      exact ⟨hs₀, fun _ => hcourse.progress.exists_view ht⟩

theorem Course.start {first : Line} (hname : first.name?.isSome = true) :
    Course table use [] first [] (.opened first) where
  progress := Progress.start table use first
  begun := rfl
  distinct := by simp [State.opened, State.begin, State.add, State.setNames, State.start]
  visited b := by
    rw [reaches_nil]
    exact List.mem_singleton
  named := hname
  labels := by simp [openRows, placed]
  closed := by simp

/-- The course through the body of a program: the sections are those that were closed on the way and
the open one, which the end directive closes. -/
theorem Course.through (ht : table.Sized .sectioned) {first last : Line} {body : List Line}
    (rest : List Line) {s₀ s₁ : State} (h : Course table use [] first [] s₀)
    (hb : ∀ l ∈ body, l.mnemonic ≠ "START" ∧ l.mnemonic ≠ "END") (hl : last.mnemonic = "END")
    {n : Nat} (hsteps : CleanSteps (pass table use).watched (fun s => s.found = []) s₀ n body s₁) :
    ∃ done opener ls, Course table use done opener ls s₁ ∧
      controlSections (first :: (body ++ last :: rest)) = done ++ [⟨opener, ls, last⟩] := by
  exact cleanSteps_controlSections (Course table use)
    (fun h hl hsection hs hc => h.line ht hl hsection ((pass table use).step_of_watched hs) hc)
    (fun h hl hs hc => h.sectionLine hl ((pass table use).step_of_watched hs) hc) h hb
      hsteps hl rest

theorem programFits_of_accepted (ht : table.Sized .sectioned) {program : List Line} {v : Snapshot}
    (hfault : (trace table use program).fault = none)
    (hlast : (trace table use program).snapshots.getLast? = some v) (hfound : v.found = []) :
    ProgramFits table use program := by
  have hstepping := (pass table use).stepping_watched (State.stepping table use)
  obtain ⟨rs, hrs⟩ := records_of_found hfault hlast hfound
  obtain ⟨-, hfits, -⟩ := of_trace ht hfault hlast hrs
  obtain ⟨s', hrun, hview⟩ := ((pass table use).trace_getLast?_eq_iff _ _ _ _).1 ⟨hfault, hlast⟩
  obtain ⟨hf, hend, -⟩ := view_close_clean hview hrs
  obtain ⟨first, body, last, rest, s₀, s₁, rfl, hfirst, hb, hl, hstart, hc₀, hsteps, hfin, hc⟩ :=
    (runLines_program_iff hstepping rfl rfl 1 program).1 ⟨hrun, hf, hend⟩
  obtain ⟨hcommences, rfl⟩ :=
    (State.start_line_iff hfirst).1 ⟨(pass table use).step_of_watched hstart, hc₀⟩
  obtain ⟨hnumber, hname, hzero⟩ := State.commences_start_iff.1 hcommences
  obtain ⟨done, opener, ls, hcourse, hsections⟩ := (Course.start hname).through ht rest hb hl hsteps
  obtain ⟨hcounter, hframe⟩ := hcourse.endLine ht hl ((pass table use).step_of_watched hfin) hc
  refine
    { framed := ⟨first, body, last, rest, rfl, hfirst, hb, hl⟩
      load := fun k hk => ?_
      distinct := ?_
      fits := hfits
      frames := fun sec hsec => ?_
      ends := fun sec hsec => ?_ }
  · obtain rfl := Option.some.inj hk
    exact ⟨hnumber, hzero⟩
  · have hdistinct := hcourse.distinct
    rw [hcourse.begun] at hdistinct
    rw [hsections, List.map_append]
    exact hdistinct
  · rw [hsections, List.mem_append, List.mem_singleton] at hsec
    cases hsec with
    | inl hsec => exact hcourse.closed sec hsec
    | inr hsec => rw [hsec]; exact hframe
  · rw [hsections, List.getLast?_append, List.getLast?_singleton] at hsec
    obtain rfl := Option.some.inj hsec
    obtain ⟨os, -, rfl⟩ := (map_eq_ok_iff _ _ _).1 hview
    have hfound : s'.close.found = [] := hfound
    simp only [State.close, List.append_eq_nil_iff, Site.report_eq_nil_iff,
      rangeProblems_eq_nil_iff] at hfound
    have hmem := hfound.2.2
    rw [hcounter] at hmem
    exact hmem

theorem ProgramFits.exists_run (ht : table.Sized .sectioned) {program : List Line}
    (h : ProgramFits table use program) :
    ∃ s' rs, runLines (pass table use).watched (pass table use).ended .start 1 program = .ok s' ∧
      s'.started = true ∧ s'.ended = true ∧ s'.found = [] ∧ InMemory s'.counter ∧
      Draft.records dialect s'.drafts = .ok rs := by
  have hstepping := (pass table use).stepping_watched (State.stepping table use)
  obtain ⟨first, body, last, rest, rfl, hfirst, hb, hl⟩ := h.framed
  obtain ⟨hnumber, hzero⟩ := h.load first rfl
  obtain ⟨post, closer, secs, hcut⟩ := exists_cons_sectionsFrom first body rest hl
  have hsections :
      controlSections (first :: (body ++ last :: rest)) =
        sectionsFrom first (body ++ last :: rest) := rfl
  have hname : first.name?.isSome = true :=
    (h.frames ⟨first, post, closer⟩ (by rw [hsections, hcut]; exact List.mem_cons_self)).named
  have hstart : (pass table use).watched .start 1 first = .ok (.opened first) := by
    rw [Pass.watched_of_not_shows _ (showsAfter_eq_false table (.inl hfirst))]
    exact ((State.start_line_iff hfirst).2
      ⟨State.commences_start_iff.2 ⟨hnumber, hname, hzero⟩, rfl⟩).1
  have hbegun : Course table use [] first [] _ := Course.start hname
  obtain ⟨s₁, s', hsteps, hfin, hf'⟩ := hbegun.exists_run ht rest hb hl
    (by rw [prependBody_nil]; exact fun sec hsec => ⟨h.fits sec hsec, h.frames sec hsec⟩)
    (by rw [prependBody_nil]; exact h.distinct) 2
  obtain ⟨hrun, -, hend⟩ := (runLines_program_iff hstepping rfl rfl 1 _).2
    ⟨first, body, last, rest, _, s₁, rfl, hfirst, hb, hl, hstart, hbegun.progress.stage.found,
      hsteps, hfin, hf'⟩
  obtain ⟨done, opener, ls, hcourse, hsections⟩ := hbegun.through ht rest hb hl hsteps
  obtain ⟨hdrafts, -, hfits⟩ :=
    hcourse.progress.endLine ht hl ((pass table use).step_of_watched hfin) hf'
  obtain ⟨hcounter, -⟩ := hcourse.endLine ht hl ((pass table use).step_of_watched hfin) hf'
  have hstarted : s'.started = true :=
    (State.frame_of_line (by simp [hl]) ((pass table use).step_of_watched hfin) hf').2.2.1
  refine ⟨s', _, hrun, hstarted, hend, hf', ?_, by rw [hdrafts, records_flatMap ht hfits]⟩
  rw [hcounter]
  exact h.ends ⟨opener, ls, last⟩ (by rw [hsections]; simp)

/-- One pass accepts a program if and only if the program meets what is asked of it. -/
theorem accepted_iff (ht : table.Sized .sectioned) (program : List Line) :
    (∃ v, (trace table use program).fault = none ∧
      (trace table use program).snapshots.getLast? = some v ∧ v.found = []) ↔
      ProgramFits table use program := by
  constructor
  · intro ⟨v, hfault, hlast, hfound⟩
    exact programFits_of_accepted ht hfault hlast hfound
  · intro h
    obtain ⟨s', rs, hrun, hstarted, hended, hfound, hmem, hrecords⟩ := h.exists_run ht
    have hclose : s'.close.found = [] := by
      simp [State.close, hfound, hstarted, hended, (rangeProblems_eq_nil_iff _ _).2 hmem]
    have hkept : s'.close.drafts = s'.drafts := rfl
    have hview : s'.close.view = .ok ⟨some rs, .sectioned s'.sections, []⟩ := by
      rw [State.view, hkept, hrecords, map_ok, hclose]
      rfl
    obtain ⟨hfault, hlast⟩ :=
      ((pass table use).trace_getLast?_eq_iff .start 1 _ _).2 ⟨s', hrun, hview⟩
    exact ⟨_, hfault, hlast, rfl⟩

end Sectioned

end Assembler.OnePass
