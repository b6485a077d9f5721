import Assembler.Proofs.Placement
import Assembler.Proofs.Runs
import Assembler.TwoPass.Flat

/-! # Which flat programs are listed

`FlatProgram` says of a start directive, a body and an end directive that nothing is wrong with
them.  The first of two passes gives a listing of exactly the programs that begin with such lines,
and the listing holds the placed lines and the addresses of their labels (`list_eq_listed_iff`). -/

namespace Assembler
set_option autoImplicit false

/-! ## Programs that nothing is wrong with -/

/-- The address where a program is loaded. -/
def Layout.load (layout : Layout) (first : Line) : Int :=
  (onlyNumber? first.operands).getD layout.origin

def flatRows (layout : Layout) (table : OpTable) (first : Line) (body : List Line) :
    List (Row × Int) :=
  placed layout table none (layout.load first) body

def flatEnd (layout : Layout) (table : OpTable) (first : Line) (body : List Line) : Int :=
  layout.load first + extentOf layout table body

def flatLabels (layout : Layout) (table : OpTable) (first : Line) (body : List Line) (last : Line) :
    String → Option Int :=
  labelled (addressOf ((flatRows layout table first body).map (·.1)))
    (flatEnd layout table first body) last

/-- A flat program that nothing is wrong with. -/
structure FlatProgram (layout : Layout) (table : OpTable) (use : NameUse) (first : Line)
    (body : List Line) (last : Line) :
    Prop where
  start : first.mnemonic = "START"
  start_operands : isOptionalNumber first.operands = true
  start_label : first.name?.isSome = true
  load : InMemory (layout.load first)
  load_layout : layout.loadProblems (layout.load first) = []
  body_fits : BodyFits layout table use (layout.load first) (fun _ => none) body
  finish : last.mnemonic = "END"
  finish_operands : isOptionalNumber last.operands = true
  finish_label : Fresh (addressOf ((flatRows layout table first body).map (·.1))) last
  finish_inMemory : InMemory (flatEnd layout table first body)

/-- The lines of the body lie in memory. -/
theorem FlatProgram.bounds {layout : Layout} {table : OpTable} {use : NameUse} {first : Line}
    {body : List Line} {last : Line} (h : FlatProgram layout table use first body last)
    (ht : table.Sized layout) {p : Row × Int} (hp : p ∈ flatRows layout table first body) :
    p.1.line.Fits layout table use p.1.address ∧ p.2 = p.1.line.extent layout table ∧
      layout.load first ≤ p.1.address ∧ 0 ≤ p.2 ∧ p.1.address + p.2 ≤ lastAddress := by
  obtain ⟨h1, h2, h3⟩ := (bounds_of_mem_placed ht h.body_fits.fits).2 p hp
  have hend := h.finish_inMemory.2
  unfold flatEnd at hend
  exact ⟨h.body_fits.fits p hp, snd_of_mem_placed _ _ _ hp, h1, h2, by omega⟩

theorem cut_unique {body body' : List Line} {last last' : Line} {rest rest' : List Line}
    (h : body ++ last :: rest = body' ++ last' :: rest') (hb : ∀ l ∈ body, l.mnemonic ≠ "END")
    (hb' : ∀ l ∈ body', l.mnemonic ≠ "END") (hl : last.mnemonic = "END")
    (hl' : last'.mnemonic = "END") :
    body = body' ∧ last = last' := by
  induction body generalizing body' with
  | nil =>
    cases body' with
    | nil => exact ⟨rfl, (List.cons.inj h).1⟩
    | cons k ks =>
      obtain ⟨rfl, -⟩ := List.cons.inj h
      exact absurd hl (hb' _ List.mem_cons_self)
  | cons k ks ih =>
    cases body' with
    | nil =>
      obtain ⟨rfl, -⟩ := List.cons.inj h
      exact absurd hl' (hb _ List.mem_cons_self)
    | cons k' ks' =>
      obtain ⟨rfl, htail⟩ := List.cons.inj h
      obtain ⟨rfl, rfl⟩ :=
        ih htail (fun l hl => hb l (List.mem_cons_of_mem _ hl))
          (fun l hl => hb' l (List.mem_cons_of_mem _ hl))
      exact ⟨rfl, rfl⟩

theorem FlatProgram.unique {layout : Layout} {table : OpTable} {use use' : NameUse}
    {first first' : Line} {body body' : List Line} {last last' : Line} {rest rest' : List Line}
    (h : FlatProgram layout table use first body last)
    (h' : FlatProgram layout table use' first' body' last')
    (heq : first :: (body ++ last :: rest) = first' :: (body' ++ last' :: rest')) :
    first = first' ∧ body = body' ∧ last = last' :=
  ⟨(List.cons.inj heq).1,
    cut_unique (List.cons.inj heq).2 (fun l hl => (h.body_fits.not_frame l hl).2)
      (fun l hl => (h'.body_fits.not_frame l hl).2) h.finish h'.finish⟩

/-! ## The table of labels -/

def noteName (names : OrderedMap String Int) (a : Int) (l : Line) : OrderedMap String Int :=
  match l.name? with
  | none => names
  | some x => names.insert x a

def noteNames (names : OrderedMap String Int) (rows : List Row) : OrderedMap String Int :=
  rows.foldl (fun m r => noteName m r.address r.line) names

theorem get?_noteName (names : OrderedMap String Int) (a : Int) (l : Line) :
    (noteName names a l).get? = labelled names.get? a l := by
  funext x
  unfold noteName labelled
  split
  · next h => simp [h]
  · next y h => simp [h]

theorem get?_noteNames (names : OrderedMap String Int) (rows : List Row) (x : String) :
    (noteNames names rows).get? x = (addressOf rows x).or (names.get? x) := by
  induction rows generalizing names with
  | nil => simp [noteNames, addressOf]
  | cons r rs ih =>
    have h := ih (noteName names r.address r.line)
    simp only [noteNames, List.foldl_cons] at h ⊢
    rw [h, get?_noteName, addressOf, Option.or_assoc, labelled]
    split <;> simp

/-- The name use that a dialect looks at: the plain absolute one does not look. -/
def Dialect.heeded (d : Dialect) (use : NameUse) : NameUse :=
  if d = .absoluteTwoPass then .both else use

theorem Dialect.nameUseProblems_eq (d : Dialect) (use : NameUse) (ops : List Operand) :
    d.nameUseProblems use ops = Assembler.nameUseProblems (d.heeded use) ops := by
  unfold Dialect.nameUseProblems Dialect.heeded
  split <;> simp [Assembler.nameUseProblems]

namespace TwoPass.Flat

variable {d : Dialect} {table : OpTable} {use : NameUse} {s s' : Scan} {n : Nat} {l : Line}

namespace Scan

/-! ## One line -/

/-- The scan with the label of a line noted. -/
def noted (s : Scan) (l : Line) : Scan := { s with names := noteName s.names s.counter l }

/-- The scan after a line of the body that nothing is wrong with. -/
def after (layout : Layout) (table : OpTable) (s : Scan) (l : Line) : Scan :=
  ((s.noted l).list l).moveTo (s.counter + l.extent layout table)

/-- The scan after an end directive that nothing is wrong with. -/
def afterEnd (s : Scan) (l : Line) : Scan := { (s.noted l).list l with ended := true }

theorem noteLabel_eq (n : Nat) (hnew : Fresh s.names.get? l) (hfit : l.LabelFits s.counter) :
    s.noteLabel n l = s.noted l := by
  unfold noteLabel noted noteName
  cases hl : l.name? with
  | none => rfl
  | some x =>
    have hr : rangeProblems s.counter (.label x) = [] :=
      (rangeProblems_eq_nil_iff _ _).2 (hfit (by simp [hl]))
    simp [OrderedMap.contains, hnew x hl, report, hr]

theorem noteLabel_found_iff (n : Nat) (l : Line) :
    (s.noteLabel n l).found = [] ↔ s.found = [] ∧ Fresh s.names.get? l ∧ l.LabelFits s.counter := by
  unfold noteLabel Fresh Line.LabelFits
  cases l.name? with
  | none => simp
  | some x =>
    cases hx : s.names.get? x with
    | some b => simp [OrderedMap.contains, hx, report]
    | none => simp [OrderedMap.contains, hx, report]

theorem storageLine_clean_iff (kind : Storage) (n : Nat) (l : Line) :
    (s.storageLine kind n l = .ok s' ∧ s'.found = []) ↔
      s.found = [] ∧ (∃ al, kind.allot s.counter l.operands = .ok al ∧ al.problems = []) ∧
        s' = (s.list l).moveTo (s.counter + kind.extent l.operands) :=
  Storage.clean_iff found (fun _ => rfl) (fun _ _ => rfl) fun al hal => by
    simp [report, (Storage.allot_eq hal).1, moveTo, list]

theorem commandLine_clean_iff (op : Operation) (n : Nat) (l : Line) :
    (s.commandLine d use op n l = .ok s' ∧ s'.found = []) ↔
      s.found = [] ∧ (commandProblems d.layout s.counter l.mnemonic op.size l.operands = .ok [] ∧
        nameUseProblems (d.heeded use) l.operands = []) ∧
        s' = (s.list l).moveTo (s.counter + op.size) := by
  unfold commandLine
  rw [map_eq_ok_iff, d.nameUseProblems_eq]
  constructor
  · rintro ⟨⟨ps, hps, rfl⟩, hf⟩
    simp only [moveTo, report, list, List.append_eq_nil_iff, Site.report_eq_nil_iff] at hf
    obtain ⟨hf, rfl, hu⟩ := hf
    exact ⟨hf, ⟨hps, hu⟩, by simp [report, hu, moveTo, list]⟩
  · rintro ⟨hf, ⟨hps, hu⟩, rfl⟩
    exact ⟨⟨[], hps, by simp [report, hu, moveTo, list]⟩, hf⟩

/-- A line of the body leaves no problem if and only if it fits where it stands and its label is
new. -/
theorem line_clean_iff (hs : s.started = true) (hstart : l.mnemonic ≠ "START")
    (hend : l.mnemonic ≠ "END") (n : Nat) :
    (s.line d table use n l = .ok s' ∧ s'.found = []) ↔
      s.found = [] ∧ l.FitsAt d.layout table (d.heeded use) s.counter s.names.get? ∧
      s' = s.after d.layout table l := by
  have hx : s.expectStarted n = s := if_pos hs
  have hlabel := noteLabel_found_iff (s := s) n l
  rw [Line.fitsAt_iff]
  unfold line Line.Fits after Line.extent
  rw [hx]
  generalize hst : Statement.ofMnemonic d.layout table l.mnemonic = st
  cases st with
  | start => exact absurd ((Statement.ofMnemonic_eq_start_iff _ _ _).1 hst) hstart
  | finish => exact absurd ((Statement.ofMnemonic_eq_finish_iff _ _ _).1 hst) hend
  | storage kind =>
    simp only [storageLine_clean_iff, hlabel, and_assoc]
    refine and_congr_right fun _ => and_congr_right fun hnew => and_congr_right fun hfit => ?_
    rw [noteLabel_eq n hnew hfit]
    rfl
  | command op =>
    simp only [commandLine_clean_iff, hlabel, and_assoc]
    refine and_congr_right fun _ => and_congr_right fun hnew => and_congr_right fun hfit => ?_
    rw [noteLabel_eq n hnew hfit]
    rfl
  | _ =>
    simp only [false_and, and_false, iff_false, not_and]
    intro h
    cases h
    simp [report]

/-- An end directive leaves no problem if and only if it has at most a number and its label is
new. -/
theorem endLine_clean_iff (hs : s.started = true) (hend : l.mnemonic = "END") (n : Nat) :
    (s.line d table use n l = .ok s' ∧ s'.found = []) ↔
      s.found = [] ∧ Fresh s.names.get? l ∧ l.LabelFits s.counter ∧
      isOptionalNumber l.operands = true ∧
        s' = s.afterEnd l := by
  have hx : s.expectStarted n = s := if_pos hs
  have hlabel := noteLabel_found_iff (s := s) n l
  unfold line
  rw [(Statement.ofMnemonic_eq_finish_iff _ _ _).2 hend, hx]
  simp only [Except.ok.injEq]
  constructor
  · rintro ⟨rfl, hf⟩
    simp only [endLine, report, list, List.append_eq_nil_iff, Site.report_eq_nil_iff,
      ite_eq_left_iff, reduceCtorEq, imp_false, Bool.not_eq_true, Bool.not_eq_false, hlabel] at hf
    obtain ⟨⟨hf, hnew, hfit⟩, hop⟩ := hf
    refine ⟨hf, hnew, hfit, hop, ?_⟩
    simp [noteLabel_eq n hnew hfit, endLine, hop, report, list, noted, afterEnd]
  · rintro ⟨hf, hnew, hfit, hop, rfl⟩
    refine ⟨?_, hf⟩
    simp [noteLabel_eq n hnew hfit, endLine, hop, report, list, noted, afterEnd]

/-- A start directive leaves no problem if and only if it is the first one, names the program and
gives a load address of the layout, or none. -/
theorem startLine_clean_iff (hstart : l.mnemonic = "START") (n : Nat) :
    (s.line d table use n l = .ok s' ∧ s'.found = []) ↔
      s.found = [] ∧ s.started = false ∧ isOptionalNumber l.operands = true ∧
      InMemory (s.loadAddress l) ∧
        d.layout.loadProblems (s.loadAddress l) = [] ∧ l.name?.isSome = true ∧
        s' = ({ s with started := true }.moveTo (s.loadAddress l)).list l := by
  unfold line
  rw [(Statement.ofMnemonic_eq_start_iff _ _ _).2 hstart]
  simp only [Except.ok.injEq, startLine]
  constructor
  · rintro ⟨rfl, hf⟩
    simp only [list, moveTo, report, startProblems, List.append_eq_nil_iff, Site.report_eq_nil_iff]
      at hf
    obtain ⟨hf, ⟨⟨⟨hst, hop⟩, hr⟩, hl⟩, hname⟩ := hf
    have hp : s.startProblems d.layout l = [] := by
      rw [startProblems, hst, hop, hr, hl, hname]
      rfl
    refine ⟨hf, by simpa using hst, by simpa using hop, by simpa using hr, hl, ?_, ?_⟩
    · cases h : l.name? <;> simp [h] at hname ⊢
    · simp [hp, report]
  · rintro ⟨hf, hst, hop, hr, hl, hname, rfl⟩
    have hn : l.name?.isNone = false := by cases h : l.name? <;> simp [h] at hname ⊢
    have hp : s.startProblems d.layout l = [] := by
      simp [startProblems, hst, hop, (rangeProblems_eq_nil_iff _ _).2 hr, hl, hn]
    exact ⟨by simp [hp, report], hf⟩

/-! ## Runs -/

theorem found_of_expectStarted (h : (s.expectStarted n).found = []) :
    s.found = [] ∧ s.started = true := by
  unfold expectStarted at h
  split at h
  · next hs => exact ⟨h, hs⟩
  · simp [report] at h

/-- What has been reported stays reported, and a line before the start directive is reported. -/
theorem found_of_line (hstart : l.mnemonic ≠ "START") (h : s.line d table use n l = .ok s')
    (hf : s'.found = []) :
    s.found = [] ∧ s.started = true := by
  have hlabel : ((s.expectStarted n).noteLabel n l).found = [] → s.found = [] ∧ s.started = true :=
    fun h =>
    found_of_expectStarted ((noteLabel_found_iff n l).1 h).1
  unfold line at h
  split at h
  · next hst => exact absurd ((Statement.ofMnemonic_eq_start_iff _ _ _).1 hst) hstart
  · cases h
    exact hlabel (List.append_eq_nil_iff.1 hf).1
  · exact hlabel ((storageLine_clean_iff _ n l).1 ⟨h, hf⟩).1
  · exact hlabel ((commandLine_clean_iff _ n l).1 ⟨h, hf⟩).1
  · cases h
    exact hlabel (List.append_eq_nil_iff.1 hf).1

/-- What a line other than a start directive leaves of the frame. -/
theorem frame_of_line (hstart : l.mnemonic ≠ "START") (h : s.line d table use n l = .ok s')
    (hf : s'.found = []) :
    s.found = [] ∧ s.started = true ∧ s'.started = true ∧
      (s.ended = false → (s'.ended = true ↔ l.mnemonic = "END")) := by
  obtain ⟨hc, hs⟩ := found_of_line hstart h hf
  by_cases hend : l.mnemonic = "END"
  · obtain ⟨-, -, -, -, rfl⟩ := (endLine_clean_iff hs hend _).1 ⟨h, hf⟩
    exact ⟨hc, hs, hs, fun _ => by simp [hend, afterEnd]⟩
  · obtain ⟨-, -, rfl⟩ := (line_clean_iff hs hstart hend _).1 ⟨h, hf⟩
    exact ⟨hc, hs, hs, fun he => by simp [hend, after, noted, list, moveTo, he]⟩

theorem stepping (d : Dialect) (table : OpTable) (use : NameUse) :
    Stepping (line d table use) started ended (fun s => s.found = []) := by
  refine .of_lines (fun hl h hf => ?_) frame_of_line
  obtain ⟨hc, hs, -, -, -, -, rfl⟩ := (startLine_clean_iff hl _).1 ⟨h, hf⟩
  exact ⟨hc, hs, rfl, rfl⟩

theorem lines_eq_runLines (s : Scan) (n : Nat) (ls : List Line) :
    s.lines d table use n ls = runLines (line d table use) ended s n ls := by
  induction ls generalizing s n with
  | nil => rfl
  | cons l ls ih =>
    rw [lines, runLines]
    split
    · rfl
    · cases s.line d table use n l with
      | error x => rfl
      | ok s' => exact ih s' (n + 1)

/-- The scan after lines of the body that nothing is wrong with. -/
def afterAll (layout : Layout) (table : OpTable) (s : Scan) (ls : List Line) : Scan :=
  ls.foldl (after layout table) s

theorem cleanSteps_iff (hs : s.started = true) (hf : s.found = []) (n : Nat) {body : List Line}
    (hb : ∀ l ∈ body, l.mnemonic ≠ "START" ∧ l.mnemonic ≠ "END") :
    CleanSteps (line d table use) (fun s => s.found = []) s n body s' ↔
      BodyFits d.layout table (d.heeded use) s.counter s.names.get? body ∧
      s' = s.afterAll d.layout table body := by
  induction body generalizing s n with
  | nil => simp [CleanSteps, BodyFits, AllAlong, afterAll, eq_comm]
  | cons l body ih =>
    obtain ⟨hstart, hend⟩ := hb l List.mem_cons_self
    have hb' : ∀ l ∈ body, l.mnemonic ≠ "START" ∧ l.mnemonic ≠ "END" :=
      fun k hk => hb k (List.mem_cons_of_mem _ hk)
    have hnames : (s.after d.layout table l).names.get? = labelled s.names.get? s.counter l :=
      get?_noteName _ _ _
    have ih := ih (s := s.after d.layout table l) hs hf (n + 1) hb'
    rw [hnames] at ih
    constructor
    · rintro ⟨s₁, hl, hc, hrest⟩
      obtain ⟨-, hfit, rfl⟩ := (line_clean_iff hs hstart hend n).1 ⟨hl, hc⟩
      obtain ⟨hbody, rfl⟩ := ih.1 hrest
      exact ⟨⟨hfit, hbody⟩, rfl⟩
    · rintro ⟨⟨hfit, hbody⟩, rfl⟩
      obtain ⟨hl, hc⟩ := (line_clean_iff hs hstart hend n).2 ⟨hf, hfit, rfl⟩
      exact ⟨_, hl, hc, ih.2 ⟨hbody, rfl⟩⟩

theorem afterAll_eq (layout : Layout) (table : OpTable) (s : Scan) (ls : List Line) :
    s.afterAll layout table ls =
      { s with
        counter := s.counter + extentOf layout table ls
        names := noteNames s.names ((placed layout table none s.counter ls).map (·.1))
        rows := s.rows ++ (placed layout table none s.counter ls).map (·.1) } := by
  induction ls generalizing s with
  | nil => simp [afterAll, extentOf, placed, noteNames]
  | cons l ls ih =>
    have e : s.counter + l.extent layout table + extentOf layout table ls = s.counter +
        extentOf layout table (l :: ls) := by
      rw [extentOf]; omega
    have hs : s.afterAll layout table (l :: ls) = (s.after layout table l).afterAll layout table
        ls := rfl
    rw [hs, ih]
    simp [after, noted, list, moveTo, placed, noteNames, e]

end Scan

/-! ## Whole programs -/

/-- The rows of the listing of a flat program. -/
def listedRows (layout : Layout) (table : OpTable) (first : Line) (body : List Line) (last : Line) :
    List Row :=
  ⟨layout.load first, first, none⟩ :: ((flatRows layout table first body).map (·.1) ++
    [⟨flatEnd layout table first body, last, none⟩])

/-- The labels of the listing of a flat program. -/
def listedNames (layout : Layout) (table : OpTable) (first : Line) (body : List Line)
    (last : Line) : OrderedMap String Int :=
  noteNames ∅
    ((flatRows layout table first body).map (·.1) ++
      [⟨flatEnd layout table first body, last, none⟩])

theorem get?_listedNames (layout : Layout) (table : OpTable) (first : Line) (body : List Line)
    (last : Line) :
    (listedNames layout table first body last).get? = flatLabels layout table first body last := by
  funext x
  rw [listedNames, get?_noteNames, addressOf_concat]
  simp [flatLabels]

theorem join_get?_listedNames (layout : Layout) (table : OpTable) (first : Line) (body : List Line)
    (last : Line) (x : String) :
    (((listedNames layout table first body last).mapValues some).get? x).join =
      flatLabels layout table first body last x := by
  rw [OrderedMap.get?_mapValues, get?_listedNames]
  cases flatLabels layout table first body last x <;> rfl

/-- The scan before the end directive. -/
def beforeEnd (layout : Layout) (table : OpTable) (first : Line) (body : List Line) : Scan where
  counter := flatEnd layout table first body
  started := true
  ended := false
  names := noteNames ∅ ((flatRows layout table first body).map (·.1))
  rows := ⟨layout.load first, first, none⟩ :: (flatRows layout table first body).map (·.1)
  found := []

theorem afterAll_start (layout : Layout) (table : OpTable) (first : Line) (body : List Line) :
    (({ Scan.start layout with started := true }.moveTo (layout.load first)).list first).afterAll
      layout table body =
      beforeEnd layout table first body := by
  rw [Scan.afterAll_eq]
  rfl

theorem beforeEnd_get? (layout : Layout) (table : OpTable) (first : Line) (body : List Line) :
    (beforeEnd layout table first body).names.get? =
      addressOf ((flatRows layout table first body).map (·.1)) := by
  funext x
  simp [beforeEnd, get?_noteNames]

theorem listing_eq_listed_iff (s : Scan) (rows : List Row) (symbols : Symbols) :
    s.listing = .listed rows symbols ↔
      s.found = [] ∧ s.started = true ∧ s.ended = true ∧ InMemory s.counter ∧ rows = s.rows ∧
        symbols = .flat (s.names.mapValues some) := by
  have hclosing : s.allFound = [] ↔ s.found = [] ∧ s.started = true ∧ s.ended = true ∧
      InMemory s.counter := by
    simp [Scan.allFound, Scan.closingProblems]
  unfold Scan.listing
  split
  · next h =>
    obtain ⟨hf, hs, he, hm⟩ := hclosing.1 (List.isEmpty_iff.1 h)
    simp [hf, hs, he, hm, eq_comm]
  · next h =>
    simp only [reduceCtorEq, false_iff]
    rintro ⟨hf, hs, he, hm, -⟩
    exact h (List.isEmpty_iff.2 (hclosing.2 ⟨hf, hs, he, hm⟩))

/-- There is a listing of exactly the programs that begin with lines that nothing is wrong with, and
it is that of these lines. -/
theorem list_eq_listed_iff (d : Dialect) (table : OpTable) (use : NameUse) (program : List Line)
    (rows : List Row) (symbols : Symbols) :
    list d table use program = .ok (.listed rows symbols) ↔
      ∃ first body last rest, program = first :: (body ++ last :: rest) ∧
        FlatProgram d.layout table (d.heeded use) first body last ∧
        rows = listedRows d.layout table first body last ∧
        symbols = .flat ((listedNames d.layout table first body last).mapValues some) := by
  have hrun := @runLines_program_iff _ _ _ _ _ (Scan.stepping d table use) (Scan.start d.layout)
  unfold list
  rw [Scan.lines_eq_runLines, map_eq_ok_iff]
  constructor
  · rintro ⟨s', hlines, hlist⟩
    obtain ⟨hf, -, hend, hm, rfl, rfl⟩ := (listing_eq_listed_iff _ _ _).1 hlist
    obtain ⟨first, body, last, rest, s₀, s₁, rfl, hfirst, hb, hlast, hstart, hc₀, hsteps,
        hfin, hc⟩ :=
      (hrun rfl rfl 1 program).1 ⟨hlines, hf, hend⟩
    obtain ⟨-, -, hop, hload, hlayout, hname, rfl⟩ :=
      (Scan.startLine_clean_iff hfirst 1).1 ⟨hstart, hc₀⟩
    obtain ⟨hbody, rfl⟩ := (Scan.cleanSteps_iff rfl hc₀ 2 hb).1 hsteps
    have hat := afterAll_start d.layout table first body
    rw [show (Scan.start d.layout).loadAddress first = d.layout.load first from rfl, hat] at hfin
    obtain ⟨-, hnew, -, hop', rfl⟩ := (Scan.endLine_clean_iff rfl hlast _).1 ⟨hfin, hc⟩
    rw [beforeEnd_get?] at hnew
    refine ⟨first, body, last, rest, rfl,
      ⟨hfirst, hop, hname, hload, hlayout, hbody, hlast, hop', hnew, hm⟩, rfl, ?_⟩
    simp [listedNames, noteNames, Scan.afterEnd, Scan.noted, beforeEnd, Scan.list]
  · rintro ⟨first, body, last, rest, rfl, h, rfl, rfl⟩
    have hfirst : (Scan.start d.layout).line d table use 1 first = .ok _ ∧ _ :=
      (Scan.startLine_clean_iff h.start 1).2 ⟨rfl, rfl, h.start_operands, h.load, h.load_layout,
        h.start_label, rfl⟩
    have hsteps : CleanSteps (Scan.line d table use) _ _ 2 body _ :=
      (Scan.cleanSteps_iff rfl hfirst.2 2 h.body_fits.not_frame).2 ⟨h.body_fits, rfl⟩
    rw [show (Scan.start d.layout).loadAddress first = d.layout.load first from rfl, afterAll_start]
      at hsteps
    have hfin :
        (beforeEnd d.layout table first body).line d table use (2 + body.length) last = .ok _ ∧ _ :=
      (Scan.endLine_clean_iff rfl h.finish _).2
        ⟨rfl, by rw [beforeEnd_get?]; exact h.finish_label, fun _ => h.finish_inMemory,
          h.finish_operands, rfl⟩
    obtain ⟨hlines, hf, hend⟩ :=
      (hrun rfl rfl 1 _).2 ⟨first, body, last, rest, _, _, rfl, h.start, h.body_fits.not_frame,
        h.finish, hfirst.1, hfirst.2, hsteps, hfin⟩
    refine ⟨_, hlines, (listing_eq_listed_iff _ _ _).2 ⟨hf, rfl, hend, h.finish_inMemory, rfl, ?_⟩⟩
    simp [listedNames, noteNames, Scan.afterEnd, Scan.noted, beforeEnd, Scan.list]

end TwoPass.Flat
end Assembler
