import Assembler.TwoPass.Sectioned
import Assembler.Proofs.SectionNames

/-! # The listing of a sectioned program

The first of two passes over a program that it accepts lists the rows of its control sections one
after another and gives each section its names (`of_list`).  The lines of a section are compatible,
what it exports has an address, and sections have different labels. -/

namespace Assembler.TwoPass.Sectioned
open Assembler
set_option autoImplicit false

/-- The line that stands for the directive that closes a section. -/
def closingLine (l : Line) : Line :=
  if l.mnemonic = "CSECT" then ⟨some "", ⟨sectionEnd, l.operands⟩⟩ else l

/-- The rows of a section in the listing. -/
def listedRows (table : OpTable) (sec : ControlSection) : List Row :=
  ⟨0, sec.opener, sec.opener.label⟩ :: ((sec.rows table).map (·.1) ++
    [⟨sec.length table, closingLine sec.closer, sec.opener.label⟩])

/-- A section that the first pass has listed. -/
structure Listed (table : OpTable) (use : NameUse) (sec : ControlSection) : Prop where
  opener : sec.opener.mnemonic = "START" ∨ sec.opener.mnemonic = "CSECT"
  closer : sec.closer.mnemonic = "CSECT" ∨ sec.closer.mnemonic = "END"
  compatible : (sec.nameRows table).Pairwise fun q r => q.line.Compatible r.line
  fits : ∀ p ∈ sec.rows table, p.1.line.LinkFits table use p.1.address

theorem Listed.bare {table : OpTable} {use : NameUse} {sec : ControlSection}
    (h : Listed table use sec) :
    ∀ r ∈ sec.nameRows table, ∀ x, r.line.Declares x → r.line.name? = none := by
  intro r hr x hx
  rcases List.mem_append.1 hr with hr | hr
  · obtain ⟨p, hp, rfl⟩ := List.mem_map.1 hr
    exact (h.fits p hp).name?_of_declares hx
  · unfold ControlSection.endRows at hr
    split at hr
    · next hend =>
      rw [List.mem_singleton.1 hr] at hx
      rcases hx with hx | hx <;> simp [hx.1] at hend
    · cases hr

/-- The scan after the sections `done` and the lines `ls` of the open one, in which nothing is
wrong. -/
structure Stage (table : OpTable) (use : NameUse) (done : List ControlSection) (opener : Line)
    (ls : List Line) (s : Scan) : Prop where
  counter : s.counter = extentOf .sectioned table ls
  started : s.started = true
  found : s.found = []
  current : s.current = opener.label
  opens : opener.mnemonic = "START" ∨ opener.mnemonic = "CSECT"
  begun : s.begun = (done.map fun sec => sec.opener.label) ++ [opener.label]
  distinct : s.begun.Nodup
  rows : s.rows = done.flatMap (listedRows table) ++ ⟨0, opener, opener.label⟩ ::
    openRows table opener ls
  tables : ∀ k, (s.sections.get? k).map (fun ns => ns.get?) =
    tableOf (tablesOf .twoPass table done ++
      [(opener.label,
        NameTable.afterRows .twoPass table (fun _ => none) (openRows table opener ls))]) k
  keys : s.sections.keys = s.begun
  compatible : (openRows table opener ls).Pairwise fun q r => q.line.Compatible r.line
  fits : ∀ p ∈ placed .sectioned table opener.label 0 ls, p.1.line.LinkFits table use p.1.address
  closed : ∀ sec ∈ done, Listed table use sec

variable {table : OpTable} {use : NameUse} {done : List ControlSection} {opener : Line}
  {ls : List Line} {s s' : Scan} {n : Nat} {l : Line}

namespace Scan

/-! ## What single lines leave -/

theorem names_eq_ok_iff {ns : SectionNames (Option Int)} :
    s.names = .ok ns ↔ s.sections.get? s.current = some ns := by
  unfold names
  cases s.sections.get? s.current <;> simp

/-- A label that is left without a problem is not imported and has no address yet. -/
theorem noteLabel_clean (h : s.noteLabel n l = .ok s') (hf : s'.found = []) :
    s.found = [] ∧ (l.name? = none ∧ s' = s ∨
      ∃ x ns, l.name? = some x ∧ s.sections.get? s.current = some ns ∧
        (¬ NameTable.Imported ns.get? x ∧ NameTable.address? ns.get? x = none) ∧
        s' = s.setNames (ns.insert x ⟨some s.counter, (ns.get? x).bind (·.linkage)⟩)) := by
  unfold noteLabel at h
  cases hl : l.name? with
  | none =>
    simp only [hl, Except.ok.injEq] at h
    subst h
    exact ⟨hf, .inl ⟨rfl, rfl⟩⟩
  | some x =>
    simp only [hl, map_eq_ok_iff, names_eq_ok_iff] at h
    obtain ⟨ns, hns, rfl⟩ := h
    cases hx : ns.get? x with
    | none =>
      simp only [hx] at hf ⊢
      refine ⟨hf, .inr ⟨x, ns, rfl, hns, ?_, by simp [hx]⟩⟩
      simp [NameTable.Imported, NameTable.linkage?, NameTable.address?, hx]
    | some e =>
      simp only [hx] at hf ⊢
      split at hf
      · next he =>
        rw [if_pos he]
        refine ⟨hf, .inr ⟨x, ns, rfl, hns, ?_, by simp [hx, he.1]⟩⟩
        simp [NameTable.Imported, NameTable.linkage?, NameTable.address?, hx, he]
      · simp [report] at hf

theorem storageLine_clean {kind : Storage} (h : s.storageLine kind n l = .ok s')
    (hf : s'.found = []) :
    s.found = [] ∧ (∃ al, kind.allot s.counter l.operands = .ok al ∧ al.problems = []) ∧
      s' = (s.list l).moveTo (s.counter + kind.extent l.operands) := by
  refine (Storage.clean_iff found (fun _ => rfl) (fun _ _ => rfl) fun al hal => ?_).1 ⟨h, hf⟩
  simp [report, (Storage.allot_eq hal).1, moveTo, list]

theorem linkedName?_eq_some_iff {x : String} :
    linkedName? l = some x ↔ l.name? = none ∧ onlyName? l.operands = some x := by
  unfold linkedName?
  cases l.name? <;> simp

theorem exportLine_clean (h : s.exportLine n l = .ok s') (hf : s'.found = []) :
    s.found = [] ∧ l.name? = none ∧ ∃ ns x, s.sections.get? s.current = some ns ∧
      onlyName? l.operands = some x ∧
      (ns.get? x).bind (·.linkage) = none ∧
      s' = (s.list l).setNames (ns.insert x ⟨(ns.get? x).bind (·.address), some .exported⟩) := by
  unfold exportLine at h
  cases hx : linkedName? l with
  | none =>
    simp only [hx, Except.ok.injEq] at h
    subst h
    simp [report] at hf
  | some x =>
    obtain ⟨hname, hops⟩ := linkedName?_eq_some_iff.1 hx
    simp only [hx, map_eq_ok_iff, names_eq_ok_iff] at h
    obtain ⟨ns, hns, rfl⟩ := h
    cases hg : ns.get? x with
    | none =>
      simp only [hg] at hf ⊢
      exact ⟨hf, hname, ns, x, hns, hops, by simp [hg], by simp [hg]⟩
    | some e =>
      simp only [hg] at hf ⊢
      split at hf
      · next he =>
        rw [if_pos he]
        exact ⟨hf, hname, ns, x, hns, hops, by simp [hg, he], by simp [hg]⟩
      · simp [report] at hf

theorem importLine_clean (h : s.importLine n l = .ok s') (hf : s'.found = []) :
    s.found = [] ∧ l.name? = none ∧ ∃ ns x, s.sections.get? s.current = some ns ∧
      onlyName? l.operands = some x ∧
      ns.get? x = none ∧ s' = (s.list l).setNames (ns.insert x ⟨none, some .imported⟩) := by
  unfold importLine at h
  cases hx : linkedName? l with
  | none =>
    simp only [hx, Except.ok.injEq] at h
    subst h
    simp [report] at hf
  | some x =>
    obtain ⟨hname, hops⟩ := linkedName?_eq_some_iff.1 hx
    simp only [hx, map_eq_ok_iff, names_eq_ok_iff] at h
    obtain ⟨ns, hns, rfl⟩ := h
    cases hg : ns.get? x with
    | some e => simp [setNames, report, OrderedMap.contains, hg] at hf
    | none =>
      have hc : OrderedMap.contains ns x = false := by simp [OrderedMap.contains, hg]
      simp only [hc, setNames, report, list] at hf ⊢
      exact ⟨by simpa using hf, hname, ns, x, hns, hops, hg, by simp⟩

theorem commandLine_clean {op : Operation} (h : s.commandLine use op n l = .ok s')
    (hf : s'.found = []) :
    s.found = [] ∧ (commandProblems .sectioned s.counter l.mnemonic op.size l.operands = .ok [] ∧
        nameUseProblems use l.operands = []) ∧
      s' = (s.list l).moveTo (s.counter + op.size) := by
  obtain ⟨qs, hqs, rfl⟩ := (map_eq_ok_iff _ _ _).1 h
  simp only [moveTo, report, list, List.append_eq_nil_iff, Site.report_eq_nil_iff] at hf
  obtain ⟨hf, rfl, huse⟩ := hf
  exact ⟨hf, ⟨hqs, huse⟩, by simp [report, huse, moveTo, list]⟩

theorem sectionLine_clean (hf : (s.sectionLine n l).found = []) :
    s.found = [] ∧ l.label ∉ s.begun ∧ s.sectionLine n l = { s with
      counter := 0
      current := l.label
      begun := s.begun ++ [l.label]
      sections := s.sections.insert l.label ∅
      rows := s.rows ++ [⟨s.counter, ⟨some "", ⟨sectionEnd, l.operands⟩⟩, s.current⟩,
        ⟨0, l, l.label⟩] } := by
  unfold sectionLine at hf ⊢
  generalize (if l.name?.isNone = true then [Problem.unnamedSection] else []) = qs at hf ⊢
  simp only [begin, report, list, moveTo, setNames, List.append_eq_nil_iff, Site.report_eq_nil_iff]
    at hf
  obtain ⟨⟨hf, rfl⟩, hbegun⟩ := hf
  have hbegun : l.label ∉ s.begun := by simpa using hbegun
  exact ⟨hf, hbegun, by simp [begin, report, list, moveTo, setNames, hbegun]⟩

/-! ## The frame of a program -/

theorem line_eq (hstart : l.mnemonic ≠ "START") (hsection : l.mnemonic ≠ "CSECT") :
    s.line table use n l =
      match (s.expectStarted n).noteLabel n l with
      | .error x => .error x
      | .ok s' => s'.bodyLine use (Statement.ofMnemonic .sectioned table l.mnemonic) n l := by
  unfold line
  split
  · next h => exact absurd ((Statement.ofMnemonic_eq_start_iff _ _ _).1 h) hstart
  · next h => exact absurd ((Statement.ofMnemonic_eq_newSection_iff _ _).1 h) hsection
  · rfl

theorem frame_of_bodyLine {stmt : Statement} (h : s.bodyLine use stmt n l = .ok s')
    (hf : s'.found = []) :
    s.found = [] ∧ s'.started = s.started ∧ (stmt ≠ .finish → s'.ended = s.ended) ∧
      (stmt = .finish → s'.ended = true) := by
  unfold bodyLine at h
  split at h
  · cases h
    exact ⟨(List.append_eq_nil_iff.1 hf).1, rfl, fun h => absurd rfl h, fun _ => rfl⟩
  · obtain ⟨hc, -, rfl⟩ := storageLine_clean h hf
    exact ⟨hc, rfl, fun _ => rfl, nofun⟩
  · obtain ⟨hc, -, ns, x, -, -, -, rfl⟩ := exportLine_clean h hf
    exact ⟨hc, rfl, fun _ => rfl, nofun⟩
  · obtain ⟨hc, -, ns, x, -, -, -, rfl⟩ := importLine_clean h hf
    exact ⟨hc, rfl, fun _ => rfl, nofun⟩
  · obtain ⟨hc, -, rfl⟩ := commandLine_clean h hf
    exact ⟨hc, rfl, fun _ => rfl, nofun⟩
  · cases h
    simp [report] at hf

theorem expectStarted_clean (h : (s.expectStarted n).found = []) :
    s.found = [] ∧ s.started = true ∧ s.expectStarted n = s := by
  unfold expectStarted at h ⊢
  split at h
  · next hs => exact ⟨h, hs, if_pos hs⟩
  · simp [report] at h

/-- What a line other than a start directive leaves of the frame. -/
theorem frame_of_line (hl : l.mnemonic ≠ "START") (h : s.line table use n l = .ok s')
    (hf : s'.found = []) :
    s.found = [] ∧ s.started = true ∧ s'.started = true ∧
      (s.ended = false → (s'.ended = true ↔ l.mnemonic = "END")) := by
  by_cases hsection : l.mnemonic = "CSECT"
  · unfold line at h
    rw [(Statement.ofMnemonic_eq_newSection_iff _ _).2 hsection] at h
    obtain rfl := Except.ok.inj h
    obtain ⟨hc, -, heq⟩ := sectionLine_clean hf
    obtain ⟨hc, hs, hsame⟩ := expectStarted_clean hc
    rw [heq, hsame]
    refine ⟨hc, hs, hs, fun he => ?_⟩
    simp [he, hsection]
  · rw [line_eq hl hsection] at h
    cases hn : (s.expectStarted n).noteLabel n l with
    | error x => simp [hn] at h
    | ok s₁ =>
      simp only [hn] at h
      obtain ⟨hf₁, hstarted, hkeep, hend⟩ := frame_of_bodyLine h hf
      obtain ⟨hf₀, hsame⟩ := noteLabel_clean hn hf₁
      obtain ⟨hc, hs, heq⟩ := expectStarted_clean hf₀
      obtain ⟨sections, rfl⟩ : ∃ sections, s₁ = { s with sections } := by
        rw [heq] at hsame
        rcases hsame with ⟨-, rfl⟩ | ⟨x, ns, -, -, -, rfl⟩ <;> exact ⟨_, rfl⟩
      refine ⟨hc, hs, hstarted.trans hs, fun he => ?_⟩
      rw [← Statement.ofMnemonic_eq_finish_iff .sectioned table]
      refine ⟨fun he' => ?_, hend⟩
      by_contra hne
      rw [hkeep hne] at he'
      exact absurd he' (by simp [he])

/-- A start directive that leaves no problem is the first one and loads the program at zero. -/
theorem startLine_clean (hl : l.mnemonic = "START") (h : s.line table use n l = .ok s')
    (hf : s'.found = []) :
    s.found = [] ∧ s.started = false ∧ s' = { s with counter := 0, started := true }.begin l := by
  unfold line at h
  rw [(Statement.ofMnemonic_eq_start_iff _ _ _).2 hl] at h
  obtain rfl := Except.ok.inj h
  simp only [startLine, begin, list, setNames, moveTo, report, List.append_eq_nil_iff,
    Site.report_eq_nil_iff] at hf
  obtain ⟨hf, hps⟩ := hf
  have hps' := hps
  simp only [startProblems, List.append_eq_nil_iff] at hps'
  obtain ⟨⟨⟨⟨hst, -⟩, -⟩, hzero⟩, -⟩ := hps'
  have hzero : s.loadAddress l = 0 := by simpa [Layout.loadProblems] using hzero
  exact ⟨hf, by simpa using hst, by simp [startLine, hps, hzero, report, moveTo]⟩

theorem stepping (table : OpTable) (use : NameUse) :
    Stepping (line table use) started ended (fun s => s.found = []) := by
  refine .of_lines (fun hl h hf => ?_) frame_of_line
  obtain ⟨hc, hs, rfl⟩ := startLine_clean hl h hf
  exact ⟨hc, hs, rfl, rfl⟩

theorem lines_eq (n : Nat) (ls : List Line) :
    s.lines table use n ls = runLines (line table use) ended s n ls := by
  induction ls generalizing s n with
  | nil => rfl
  | cons l ls ih =>
    rw [lines, runLines]
    split
    · rfl
    · cases s.line table use n l with
      | error x => rfl
      | ok s' => exact ih _

end Scan

/-! ## From line to line -/

/-- The names that the rows of the open section have left. -/
def openNames (table : OpTable) (opener : Line) (ls : List Line) : NameTable :=
  NameTable.afterRows .twoPass table (fun _ => none) (openRows table opener ls)

theorem Stage.names (h : Stage table use done opener ls s) :
    ∃ ns, s.sections.get? s.current = some ns ∧ ns.get? = openNames table opener ls := by
  have htable := h.tables opener.label
  rw [tableOf_concat, if_pos rfl, Option.map_eq_some_iff] at htable
  rwa [h.current]

theorem Stage.current_mem_keys (h : Stage table use done opener ls s) :
    s.current ∈ s.sections.keys := by
  rw [h.keys, h.begun, h.current]
  simp

/-- What a line leaves of the names of the sections: those of the current one are replaced. -/
structure Renamed (s : Scan) (sections : Sections (Option Int)) (N : NameTable) : Prop where
  current : ∃ ns, sections.get? s.current = some ns ∧ ns.get? = N
  others : ∀ k, s.current ≠ k → sections.get? k = s.sections.get? k
  keys : sections.keys = s.sections.keys

theorem Renamed.insert {sections : Sections (Option Int)} {N : NameTable} (h : Renamed s sections N)
    (hmem : s.current ∈ s.sections.keys) (ns : SectionNames (Option Int)) :
    Renamed s (sections.insert s.current ns) ns.get? where
  current := ⟨ns, (OrderedMap.get?_insert _ _ _ _).trans (if_pos rfl), rfl⟩
  others k hk := ((OrderedMap.get?_insert _ _ _ _).trans (if_neg hk)).trans (h.others k hk)
  keys := by rw [OrderedMap.keys_insert, h.keys, if_pos hmem]

theorem Stage.renamed (h : Stage table use done opener ls s) :
    Renamed s s.sections (openNames table opener ls) :=
  ⟨h.names, fun _ _ => rfl, rfl⟩

/-- A label that is left without a problem is noted. -/
theorem Stage.noteLabel (h : Stage table use done opener ls s) (hs : s.noteLabel n l = .ok s')
    (hf : s'.found = []) :
    (∀ x, l.name? = some x → ¬ (openNames table opener ls).Imported x ∧
      (openNames table opener ls).address? x = none) ∧
      ∃ sections, s' = { s with sections } ∧
      Renamed s sections ((openNames table opener ls).label s.counter l) := by
  obtain ⟨ns, hns, hget⟩ := h.names
  rcases (Scan.noteLabel_clean hs hf).2 with ⟨hnone, rfl⟩ | ⟨x, ns', hx, hns', hfree, rfl⟩
  · refine ⟨by simp [hnone], _, rfl, ?_⟩
    rw [NameTable.label_of_none hnone]
    exact h.renamed
  · obtain rfl : ns = ns' := Option.some.inj (hns.symm.trans hns')
    have hlabel : (openNames table opener ls).label s.counter l =
        (ns.insert x ⟨some s.counter, (ns.get? x).bind (·.linkage)⟩).get? := by
      funext y
      rw [OrderedMap.get?_insert, hget]
      by_cases hy : x = y
      · rw [if_pos hy, NameTable.label_self (hy ▸ hx), ← hy]
        rfl
      · rw [if_neg hy, NameTable.label_of_ne fun e => hy (Option.some.inj (hx.symm.trans e))]
    refine ⟨fun y hy => ?_, _, rfl, ?_⟩
    · obtain rfl : x = y := Option.some.inj (hx.symm.trans hy)
      rwa [← hget]
    · rw [hlabel]
      exact h.renamed.insert h.current_mem_keys _

/-- A line that is listed becomes the last row of the open section. -/
theorem Stage.push (h : Stage table use done opener ls s)
    (hadmits : (openNames table opener ls).Admits l) (hfit : l.LinkFits table use s.counter)
    {sections : Sections (Option Int)}
    (hnames : Renamed s sections ((openNames table opener ls).after .twoPass table s.counter l))
    {b : Int} (hb : b = s.counter + l.extent .sectioned table) :
    Stage table use done opener (ls ++ [l]) { s with
      counter := b
      rows := s.rows ++ [⟨s.counter, l, s.current⟩]
      sections } := by
  have hrows := openRows_concat table opener ls l
  obtain ⟨ns, hns, hget⟩ := hnames.current
  refine { h with
    counter := ?_
    rows := ?_
    tables := fun k => ?_
    keys := hnames.keys.trans h.keys
    compatible := ?_
    fits := ?_ }
  · rw [hb, h.counter, extentOf_append]
    simp [extentOf]
  · rw [h.rows, h.counter, h.current, hrows]
    simp
  · have hrest := hnames.others
    rw [h.current] at hns hrest
    have htable := tableOf_replace h.tables hns hrest k
    rw [hget, h.counter] at htable
    rw [hrows, NameTable.afterRows_append]
    exact htable
  · rw [hrows, List.pairwise_append]
    refine ⟨h.compatible, List.pairwise_singleton _ _, fun q hq r hr => ?_⟩
    rw [List.mem_singleton.1 hr]
    exact hadmits.compatible hq
  · rw [placed_append, Int.zero_add, ← h.counter]
    intro p hp
    rcases List.mem_append.1 hp with hp | hp
    · exact h.fits p hp
    · rw [List.mem_singleton.1 hp]
      exact hfit

/-- A directive that declares a name is listed. -/
theorem Stage.link (h : Stage table use done opener ls s)
    (hadmits : (openNames table opener ls).Admits l) (hfit : l.LinkFits table use s.counter)
    {sections : Sections (Option Int)} {N : NameTable} (hnames : Renamed s sections N)
    {ns : SectionNames (Option Int)}
    (hget : ns.get? = (openNames table opener ls).after .twoPass table s.counter l)
    (hext : l.extent .sectioned table = 0) :
    Stage table use done opener (ls ++ [l]) (({ s with sections }.list l).setNames ns) := by
  have hrenamed := hnames.insert h.current_mem_keys ns
  rw [hget] at hrenamed
  exact h.push hadmits hfit hrenamed (by rw [hext, Int.add_zero]; rfl)

/-- A label is noted before what the line asks for. -/
theorem Stage.noted (h : Stage table use done opener ls s) (hstart : l.mnemonic ≠ "START")
    (hsection : l.mnemonic ≠ "CSECT") (hs : s.line table use n l = .ok s') (hf : s'.found = []) :
    (∀ x, l.name? = some x → ¬ (openNames table opener ls).Imported x ∧
      (openNames table opener ls).address? x = none) ∧
      ∃ sections, Renamed s sections ((openNames table opener ls).label s.counter l) ∧
        { s with sections }.bodyLine use (Statement.ofMnemonic .sectioned table l.mnemonic) n l =
          .ok s' := by
  rw [Scan.line_eq hstart hsection, Scan.expectStarted, if_pos h.started] at hs
  cases hn : s.noteLabel n l with
  | error x => simp [hn] at hs
  | ok s₁ =>
    simp only [hn] at hs
    obtain ⟨hlabel, sections, rfl, hnames⟩ := h.noteLabel hn (Scan.frame_of_bodyLine hs hf).1
    exact ⟨hlabel, sections, hnames, hs⟩

/-- A line of a section. -/
theorem Stage.line (h : Stage table use done opener ls s)
    (hl : l.mnemonic ≠ "START" ∧ l.mnemonic ≠ "END") (hsection : l.mnemonic ≠ "CSECT")
    (hs : s.line table use n l = .ok s') (hf : s'.found = []) :
    Stage table use done opener (ls ++ [l]) s' := by
  obtain ⟨hlabel, sections, hnames, hbody⟩ := h.noted hl.1 hsection hs hf
  obtain ⟨ns, hns, hget⟩ := hnames.current
  have hexp : Statement.ofMnemonic .sectioned table l.mnemonic ≠ .exportName → ∀ x, ¬ l.Exports x :=
    Line.not_exports
  have himp : Statement.ofMnemonic .sectioned table l.mnemonic ≠ .importName → ∀ x, ¬ l.Imports x :=
    Line.not_imports
  have hplain : (∀ x, ¬ l.Exports x) → (∀ x, ¬ l.Imports x) → (openNames table opener ls).Admits l ∧
      Renamed s sections ((openNames table opener ls).after .twoPass table s.counter l) :=
      fun he hi =>
    ⟨⟨hlabel, fun x hx => absurd hx (he x), fun x hx => absurd hx (hi x)⟩,
      by rw [NameTable.after_eq_label he hi (by simp)]; exact hnames⟩
  generalize hst : Statement.ofMnemonic .sectioned table l.mnemonic = st at hbody hexp himp
  cases st with
  | storage kind =>
    obtain ⟨-, hal, rfl⟩ := Scan.storageLine_clean hbody hf
    obtain ⟨hadmits, hrenamed⟩ := hplain (hexp (by simp)) (himp (by simp))
    have hfit : l.Fits .sectioned table use s.counter := by simpa only [Line.Fits, hst] using hal
    exact h.push hadmits (.inl hfit) hrenamed (by rw [extent_of_storage hst])
  | command op =>
    obtain ⟨-, hproblems, rfl⟩ := Scan.commandLine_clean hbody hf
    obtain ⟨hadmits, hrenamed⟩ := hplain (hexp (by simp)) (himp (by simp))
    have hfit : l.Fits .sectioned table use s.counter := by
      simpa only [Line.Fits, hst] using hproblems
    exact h.push hadmits (.inl hfit) hrenamed (by rw [extent_of_command hst])
  | exportName =>
    obtain ⟨-, hname, ns', x, hns', hx, hlinkage, rfl⟩ := Scan.exportLine_clean hbody hf
    obtain rfl : ns = ns' := Option.some.inj (hns.symm.trans hns')
    have hm := (Statement.ofMnemonic_eq_exportName_iff table _).1 hst
    have hexports : ∀ y, l.Exports y ↔ x = y := fun y => by simp [Line.Exports, hm, hx]
    have hfree : ((openNames table opener ls).label s.counter l).linkage? x = none := by
      rw [← hget]; exact hlinkage
    have hadmits : (openNames table opener ls).Admits l := by
      refine ⟨hlabel, fun y hy => ⟨hname, ?_⟩, fun y hy => absurd hy (himp (by simp) y)⟩
      rw [← (hexports y).1 hy, ← NameTable.linkage?_label _ s.counter l, hfree]
    refine h.link hadmits (.inr ⟨.inl hm, hname, x, onlyName?_eq_some_iff.1 hx⟩) hnames ?_
      (by simp [Line.extent, hst])
    funext y
    rw [OrderedMap.get?_insert, hget]
    by_cases hy : x = y
    · subst hy
      simp [NameTable.after, hexports, hfree, NameTable.address?]
    · simp [NameTable.after, hexports, himp, hy]
  | importName =>
    obtain ⟨-, hname, ns', x, hns', hx, hfree, rfl⟩ := Scan.importLine_clean hbody hf
    obtain rfl : ns = ns' := Option.some.inj (hns.symm.trans hns')
    have hm := (Statement.ofMnemonic_eq_importName_iff table _).1 hst
    have himports : ∀ y, l.Imports y ↔ x = y := fun y => by simp [Line.Imports, hm, hx]
    rw [hget, NameTable.label_of_none hname] at hfree
    have hadmits : (openNames table opener ls).Admits l := by
      refine ⟨hlabel, fun y hy => absurd hy (hexp (by simp) y), fun y hy => ⟨hname, ?_⟩⟩
      rw [← (himports y).1 hy, hfree]
    refine h.link hadmits (.inr ⟨.inr hm, hname, x, onlyName?_eq_some_iff.1 hx⟩) hnames ?_
      (by simp [Line.extent, hst])
    funext y
    rw [OrderedMap.get?_insert, hget]
    by_cases hy : x = y <;> simp [NameTable.after, himports, hexp, hy]
  | finish => exact absurd ((Statement.ofMnemonic_eq_finish_iff _ _ _).1 hst) hl.2
  | _ =>
    cases hbody
    simp [Scan.report] at hf

/-- A directive that opens the next section. -/
theorem Stage.sectionLine (h : Stage table use done opener ls s) (hl : l.mnemonic = "CSECT")
    (hs : s.line table use n l = .ok s') (hf : s'.found = []) :
    Stage table use (done ++ [⟨opener, ls, l⟩]) l [] s' := by
  unfold Scan.line at hs
  rw [(Statement.ofMnemonic_eq_newSection_iff _ _).2 hl, Scan.expectStarted, if_pos h.started] at hs
  obtain rfl := Except.ok.inj hs
  obtain ⟨-, hbegun, heq⟩ := Scan.sectionLine_clean hf
  have hrows : ControlSection.nameRows table ⟨opener, ls, l⟩ = _ :=
    ControlSection.nameRows_of_section table hl
  rw [heq] at hf ⊢
  refine
    { counter := rfl
      started := h.started
      found := hf
      current := rfl
      opens := .inr hl
      begun := by simp [h.begun]
      distinct := List.nodup_append.2 ⟨h.distinct, by simp, fun a ha b hb => ?_⟩
      rows := ?_
      tables := fun k => ?_
      keys := by rw [OrderedMap.keys_insert, h.keys, if_neg hbegun]
      compatible := by simp [openRows, placed]
      fits := by simp [placed]
      closed := fun sec hsec => ?_ }
  · rintro rfl
    exact hbegun (List.mem_singleton.1 hb ▸ ha)
  · rw [h.rows, h.counter, h.current]
    simp [listedRows, openRows, placed, ControlSection.rows, ControlSection.length, closingLine, hl]
  · rw [tableOf_concat, OrderedMap.get?_insert]
    split
    · rfl
    · rw [h.tables, tablesOf, tablesOf, List.map_append, ← hrows]
      rfl
  · rcases List.mem_append.1 hsec with hsec | hsec
    · exact h.closed sec hsec
    · rw [List.mem_singleton.1 hsec]
      exact ⟨h.opens, .inl hl, by rw [hrows]; exact h.compatible, h.fits⟩

/-- What the first pass leaves of the sections of a program that it accepts. -/
structure Accepted (table : OpTable) (use : NameUse) (secs : List ControlSection) (rows : List Row)
    (sections : Sections (Option Int)) : Prop where
  rows_eq : rows = secs.flatMap (listedRows table)
  distinct : (secs.map fun sec => sec.opener.label).Nodup
  listed : ∀ sec ∈ secs, Listed table use sec
  keys : sections.keys = secs.map fun sec => sec.opener.label
  tables : ∀ k, (sections.get? k).map (fun ns => ns.get?) = tableOf (tablesOf .twoPass table secs) k

theorem Accepted.names {secs : List ControlSection} {rows : List Row}
    {sections : Sections (Option Int)} (h : Accepted table use secs rows sections)
    {cs : ControlSection} (hcs : cs ∈ secs) :
    ∃ ns, sections.get? cs.opener.label = some ns ∧ ns.get? = cs.names .twoPass table := by
  have htable := h.tables cs.opener.label
  have hnodup : ((tablesOf .twoPass table secs).map (·.1)).Nodup := by
    simpa [tablesOf, Function.comp_def] using h.distinct
  have hmem : (cs.opener.label, cs.names .twoPass table) ∈ tablesOf .twoPass table secs :=
    List.mem_map_of_mem hcs
  rw [tableOf_eq_some hnodup hmem] at htable
  exact Option.map_eq_some_iff.1 htable

theorem Stage.endLine (h : Stage table use done opener ls s) (hl : l.mnemonic = "END")
    (hs : s.line table use n l = .ok s') (hf : s'.found = []) :
    Accepted table use (done ++ [⟨opener, ls, l⟩]) s'.rows s'.sections := by
  obtain ⟨hlabel, sections, hnames, hbody⟩ := h.noted (by simp [hl]) (by simp [hl]) hs hf
  obtain ⟨ns, hns, hget⟩ := hnames.current
  have hst := (Statement.ofMnemonic_eq_finish_iff .sectioned table _).2 hl
  rw [hst] at hbody
  obtain rfl := Except.ok.inj hbody
  have hexp := Line.not_exports (l := l) (by rw [hst]; simp)
  have himp := Line.not_imports (l := l) (by rw [hst]; simp)
  have hadmits : (openNames table opener ls).Admits l :=
    ⟨hlabel, fun x hx => absurd hx (hexp x), fun x hx => absurd hx (himp x)⟩
  have hends : ControlSection.names .twoPass table ⟨opener, ls, l⟩ =
      (openNames table opener ls).label (extentOf .sectioned table ls) l :=
      ControlSection.names_of_end .twoPass table hl
  refine
    { rows_eq := ?_
      distinct := ?_
      listed := fun sec hsec => ?_
      keys := ?_
      tables := fun k => ?_ }
  · have hline : closingLine l = l := if_neg (by simp [hl])
    simp [Scan.endLine, Scan.list, Scan.report, h.rows, h.counter, h.current, listedRows, openRows,
      ControlSection.rows, ControlSection.length, hline]
  · have hd := h.distinct
    rw [h.begun] at hd
    simpa using hd
  · rcases List.mem_append.1 hsec with hsec | hsec
    · exact h.closed sec hsec
    · rw [List.mem_singleton.1 hsec]
      refine ⟨h.opens, .inr hl, ?_, h.fits⟩
      rw [ControlSection.nameRows_of_end table hl, List.pairwise_append]
      refine ⟨h.compatible, List.pairwise_singleton _ _, fun q hq r hr => ?_⟩
      rw [List.mem_singleton.1 hr]
      exact hadmits.compatible hq
  · rw [List.map_append]
    exact hnames.keys.trans (h.keys.trans h.begun)
  · have hrest := hnames.others
    rw [h.current] at hns hrest
    have htable := tableOf_replace h.tables hns hrest k
    rw [hget, h.counter, ← hends] at htable
    rw [tablesOf, List.map_append]
    exact htable

theorem Stage.counter_of_endLine (h : Stage table use done opener ls s) (hl : l.mnemonic = "END")
    (hs : s.line table use n l = .ok s') (hf : s'.found = []) :
    s'.counter = extentOf .sectioned table ls := by
  obtain ⟨-, sections, -, hbody⟩ := h.noted (by simp [hl]) (by simp [hl]) hs hf
  rw [(Statement.ofMnemonic_eq_finish_iff .sectioned table _).2 hl] at hbody
  obtain rfl := Except.ok.inj hbody
  exact h.counter

theorem Stage.start {first : Line} (hfirst : first.mnemonic = "START") :
    Stage table use [] first [] ({ Scan.start with counter := 0, started := true }.begin first)
      where
  counter := rfl
  started := rfl
  found := rfl
  current := rfl
  opens := .inl hfirst
  begun := rfl
  distinct := by simp [Scan.begin, Scan.start, Scan.list, Scan.setNames]
  rows := rfl
  tables k := by
    rw [tableOf_concat]
    simp only [Scan.begin, Scan.setNames, Scan.list, OrderedMap.get?_insert]
    split <;> rfl
  keys := rfl
  compatible := by simp [openRows, placed]
  fits := by simp [placed]
  closed := by simp

theorem Scan.defined_of_exportProblems (h : s.exportProblems = []) {k : Option String}
    {ns : SectionNames (Option Int)} (hns : s.sections.get? k = some ns) {x : String}
    (hx : NameTable.linkage? ns.get? x = some .exported) :
    (NameTable.address? ns.get? x).isSome = true := by
  obtain ⟨e, he, hlinkage⟩ := Option.bind_eq_some_iff.1 hx
  have hsec := List.flatMap_eq_nil_iff.1 h (k, ns) (OrderedMap.mem_entries_of_get? hns)
  have hentry := List.filterMap_eq_nil_iff.1 hsec (x, e) (OrderedMap.mem_entries_of_get? he)
  rw [NameTable.address?, he, Option.bind_some, Option.isSome_iff_ne_none]
  simpa [hlinkage] using hentry

/-- A program that begins with its start directive and has an end directive before any other
start. -/
def Framed (program : List Line) : Prop :=
  ∃ first body last rest, program = first :: (body ++ last :: rest) ∧ first.mnemonic = "START" ∧
    (∀ l ∈ body, l.mnemonic ≠ "START" ∧ l.mnemonic ≠ "END") ∧ last.mnemonic = "END"

/-- The first pass lists the rows of the control sections, and the symbols are the names of the
sections, of which those that are exported have addresses.  The last section ends in memory. -/
theorem of_list_inMemory {program : List Line} {rows : List Row} {symbols : Symbols}
    (h : list table use program = .ok (.listed rows symbols)) :
    Framed program ∧ ∃ sections, symbols = .sectioned sections ∧
      Accepted table use (controlSections program) rows sections ∧
      (∀ k ns, sections.get? k = some ns → ∀ x, NameTable.linkage? ns.get? x = some .exported →
        (NameTable.address? ns.get? x).isSome = true) ∧
      ∀ sec ∈ (controlSections program).getLast?, InMemory (sec.length table) := by
  unfold list at h
  cases hrun : Scan.start.lines table use 1 program with
  | error x => simp [hrun] at h
  | ok s' =>
    simp only [hrun] at h
    split at h
    · have hlisting := Except.ok.inj h
      unfold Scan.listing at hlisting
      split at hlisting
      · next hempty =>
        simp only [Scan.allFound, Scan.closingProblems, List.isEmpty_iff, List.append_eq_nil_iff,
          Site.report_eq_nil_iff] at hempty
        obtain ⟨hf, ⟨⟨-, hend⟩, hrange⟩, hexports⟩ := hempty
        have hend : s'.ended = true := by simpa using hend
        rw [Scan.lines_eq] at hrun
        obtain ⟨first, body, last, rest, s₀, s₁, rfl, hfirst, hb, hl, hstart, hc₀, hsteps,
            hfin, hc⟩ :=
          (runLines_program_iff (Scan.stepping table use) rfl rfl 1 program).1 ⟨hrun, hf, hend⟩
        obtain ⟨-, -, rfl⟩ := Scan.startLine_clean hfirst hstart hc₀
        obtain ⟨done, opener, ls, hstage, hsections⟩ := cleanSteps_controlSections (Stage table use)
          (fun h hl hsection hs hc => h.line hl hsection hs hc)
            (fun h hl hs hc => h.sectionLine hl hs hc)
          (Stage.start hfirst) hb hsteps hl rest
        obtain ⟨rfl, rfl⟩ := Listing.listed.inj hlisting
        rw [hsections]
        refine ⟨⟨first, body, last, rest, rfl, hfirst, hb, hl⟩, _, rfl, hstage.endLine hl hfin hc,
          fun k ns hns x hx => Scan.defined_of_exportProblems hexports hns hx, fun sec hsec => ?_⟩
        rw [List.getLast?_concat, Option.mem_some_iff] at hsec
        rw [rangeProblems_eq_nil_iff, hstage.counter_of_endLine hl hfin hc] at hrange
        rw [← hsec]
        exact hrange
      · cases hlisting
    · cases h

theorem of_list {program : List Line} {rows : List Row} {symbols : Symbols}
    (h : list table use program = .ok (.listed rows symbols)) :
    Framed program ∧ ∃ sections, symbols = .sectioned sections ∧
      Accepted table use (controlSections program) rows sections ∧
      ∀ k ns, sections.get? k = some ns → ∀ x, NameTable.linkage? ns.get? x = some .exported →
        (NameTable.address? ns.get? x).isSome = true := by
  obtain ⟨hframed, sections, hsymbols, haccepted, hdefined, -⟩ := of_list_inMemory h
  exact ⟨hframed, sections, hsymbols, haccepted, hdefined⟩

end Assembler.TwoPass.Sectioned
