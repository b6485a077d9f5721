import Assembler.Proofs.GuardedWindow
import Assembler.Proofs.SteppingWindow

/-! # First passes that break off

A first pass may end before it has come to a verdict on the program: lines of the source cannot be
read, the sheet is not in order, or the handler ends in a fault.  What it changed up to then stays.

Under the basic control such a pass leaves the listing of an earlier one in place, and perhaps a
newer table beside it, so that a second pass still makes code (`put_code_iff`).  Under the guarded
control it may leave the button of the second pass behind its flags (`second_button_agrees_iff`). -/

namespace Assembler.Window
open Assembler
set_option autoImplicit false

variable {layout : Layout} {w w₀ : State} {rows : List Row} {symbols : Symbols} {table : OpTable}
  {code : List String}

/-! ## What has held since an event -/

/-- An event came to a window as `P` says, and every later one as `Q` says. -/
def Since (P Q : State → Event → Prop) (w₀ : State) (events : List Event) : Prop :=
  ∃ before e after, events = before ++ e :: after ∧ P (w₀.after before) e ∧
    ∀ mid f later, after = mid ++ f :: later → Q (w₀.after (before ++ e :: mid)) f

theorem not_since_nil (P Q : State → Event → Prop) (w₀ : State) : ¬ Since P Q w₀ [] := by
  rintro ⟨before, e, after, hcut, -⟩
  simp at hcut

theorem since_concat (P Q : State → Event → Prop) (w₀ : State) (events : List Event) (f : Event) :
    Since P Q w₀ (events ++ [f]) ↔ P (w₀.after events) f ∨ Since P Q w₀ events ∧
      Q (w₀.after events) f := by
  constructor
  · rintro ⟨before, e, after, hcut, hP, hQ⟩
    rcases List.eq_nil_or_concat' after with rfl | ⟨after, g, rfl⟩
    · obtain ⟨rfl, hlast⟩ := List.append_inj' hcut rfl
      obtain rfl := (List.cons.inj hlast).1
      exact .inl hP
    · rw [← List.cons_append, ← List.append_assoc] at hcut
      obtain ⟨rfl, hlast⟩ := List.append_inj' hcut rfl
      obtain rfl := (List.cons.inj hlast).1
      refine .inr ⟨⟨before, e, after, rfl, hP, fun mid g later hg => ?_⟩, hQ after f [] rfl⟩
      exact hQ mid g (later ++ [f]) (by simp [hg])
  · rintro (hP | ⟨⟨before, e, after, rfl, hP, hQ⟩, hf⟩)
    · exact ⟨events, f, [], rfl, hP, fun mid g later hg => by simp at hg⟩
    · refine ⟨before, e, after ++ [f], by simp, hP, fun mid g later hg => ?_⟩
      rcases List.eq_nil_or_concat' later with rfl | ⟨later, k, rfl⟩
      · obtain ⟨rfl, hlast⟩ := List.append_inj' hg rfl
        obtain rfl := (List.cons.inj hlast).1
        exact hf
      · rw [← List.cons_append, ← List.append_assoc] at hg
        exact hQ mid g later (List.append_inj' hg rfl).1

theorem holds_iff_since {P Q : State → Event → Prop} {I H : State → Prop} (hI : I w₀)
    (hnot : ¬ H w₀)
    (hstep : ∀ w e, I w → I (react w e).window ∧ (H (react w e).window ↔ P w e ∨ H w ∧ Q w e))
    (events : List Event) :
    I (w₀.after events) ∧ (H (w₀.after events) ↔ Since P Q w₀ events) := by
  induction events using List.reverseRecOn with
  | nil => exact ⟨hI, iff_of_false hnot (not_since_nil P Q w₀)⟩
  | append_singleton events f ih =>
    obtain ⟨hkept, hholds⟩ := hstep (w₀.after events) f ih.1
    rw [State.after_concat, since_concat, ← ih.2]
    exact ⟨hkept, hholds⟩

/-! ## First passes -/

/-- The source and the sheet of a window can be read, and nothing in them is out of order. -/
structure Reads (w : State) (src : Source) (sheet : Sheet.Reading) : Prop where
  parsed : Source.parse w.dialect w.source = .ok src
  bad : src.bad = []
  read : w.readSheet = .ok sheet
  problems : sheet.problems = []

theorem Reads.unique {src src' : Source} {sheet sheet' : Sheet.Reading} (h : Reads w src sheet)
    (h' : Reads w src' sheet') :
    src' = src ∧ sheet' = sheet :=
  ⟨Except.ok.inj (h'.parsed.symm.trans h.parsed), Except.ok.inj (h'.read.symm.trans h.read)⟩

theorem not_reads_of_parse {x : Fault} (h : Source.parse w.dialect w.source = .error x) :
    ¬ ∃ src sheet, Reads w src sheet := by
  rintro ⟨src, sheet, hreads⟩
  cases h.symm.trans hreads.parsed

theorem not_reads_of_sheet {x : Fault} (h : w.readSheet = .error x) :
    ¬ ∃ src sheet, Reads w src sheet := by
  rintro ⟨src, sheet, hreads⟩
  cases h.symm.trans hreads.read

/-- A first pass comes to its end and reports nothing. -/
def Succeeds (w : State) : Prop :=
  (react w (.click "firstPass")).fault = none ∧ (react w (.click "firstPass")).window.firstErrors =
    w.firstErrors

/-- A first pass ends before it has come to a verdict on the program. -/
def BreaksOff (w : State) : Prop :=
  (react w (.click "firstPass")).fault ≠ none ∨ ¬ ∃ src sheet, Reads w src sheet

/-- A first pass succeeds with a listing. -/
def ListsAs (rows : List Row) (symbols : Symbols) (w : State) : Prop :=
  Succeeds w ∧ ∃ src sheet, Reads w src sheet ∧
    listProgram w.dialect sheet.table w.use src.lines = .ok (.listed rows symbols)

/-- A first pass gets to the operations of the sheet. -/
def ReadsTable (table : OpTable) (w : State) : Prop :=
  ∃ src sheet, Reads w src sheet ∧ sheet.table = table

/-- The first button was clicked in a window with `P`, and since then only in windows with `Q`. -/
def FirstClickedSince (P Q : State → Prop) : State → List Event → Prop :=
  Since (fun w e => e = .click "firstPass" ∧ P w) fun w e => e = .click "firstPass" → Q w

/-- The most recent click on the first button was in a window with `P`. -/
def FirstClickedLast (P : State → Prop) : State → List Event → Prop :=
  FirstClickedSince P fun _ => False

/-! ## The basic control -/

/-- A window under the basic control of the dialect that goes with it. -/
structure Basic (w : State) : Prop where
  dialect : w.dialect = .absoluteTwoPass
  control : w.control = .basic

theorem Basic.firstPass (h : Basic w) : react w (.click "firstPass") = basicFirst w := by
  simp [react, Button.ofName?, h.dialect, h.control, formButtons, Dialect.absoluteTwoPass, clicked]

theorem Basic.secondPass (h : Basic w) : react w (.click "secondPass") = basicSecond w := by
  simp [react, Button.ofName?, h.dialect, h.control, formButtons, Dialect.absoluteTwoPass, clicked]

theorem refused_ne_nil {d : Dialect} {use : NameUse} {program : List Line} {found : List Diagnostic}
    (h : TwoPass.Flat.list d table use program = .ok (.refused found)) : found ≠ [] := by
  obtain ⟨s, -, hs⟩ := (map_eq_ok_iff _ _ _).1 h
  unfold TwoPass.Flat.Scan.listing at hs
  split at hs
  · cases hs
  · next hfound =>
    obtain rfl := Listing.refused.inj hs
    simpa using hfound

/-- What a first pass does under the basic control: it stops at the source or the sheet, ends in a
fault, refuses the program or remembers its listing. -/
theorem basicFirst_cases (h : Basic w) :
    (¬ (∃ src sheet, Reads w src sheet) ∧ ∃ firstErrors fault,
      basicFirst w = ⟨{ w with firstErrors }, fault⟩ ∧
      (fault ≠ none ∨ firstErrors ≠ w.firstErrors)) ∨
    ∃ src sheet, Reads w src sheet ∧
      ((∃ listing x, basicFirst w = upset { w with table := some sheet.table, listing } x) ∨
      (∃ firstErrors, firstErrors ≠ w.firstErrors ∧
        (∀ rows symbols, listProgram w.dialect sheet.table w.use src.lines ≠
          .ok (.listed rows symbols)) ∧
        basicFirst w =
          calm { w with table := some sheet.table, firstErrors, rows := none, symbols := none }) ∨
      ∃ rows symbols listing names, listProgram w.dialect sheet.table w.use src.lines =
        .ok (.listed rows symbols) ∧
        basicFirst w =
          calm { w with
            table := some sheet.table, listing, names, rows := some rows, symbols :=
              some symbols }) := by
  unfold basicFirst
  split
  · next x hparse =>
    exact .inl ⟨not_reads_of_parse hparse, w.firstErrors, some x, rfl, .inl nofun⟩
  · next src hparse =>
    dsimp only
    split
    · next hbad =>
      refine .inl ⟨?_, _, none, rfl, .inr (by simpa [Source.messages] using hbad)⟩
      rintro ⟨src', sheet, hreads⟩
      obtain rfl : src = src' := Except.ok.inj (hparse.symm.trans hreads.parsed)
      simp [hreads.bad] at hbad
    · next hbad =>
      have hbad : src.bad = [] := by simpa using hbad
      have hquiet : w.firstErrors ++ src.messages = w.firstErrors := by simp [Source.messages, hbad]
      simp only [hquiet]
      split
      · next x hsheet =>
        exact .inl ⟨not_reads_of_sheet hsheet, w.firstErrors, some x, rfl, .inl nofun⟩
      · next sheet hsheet =>
        split
        · next hproblems =>
          refine .inl ⟨?_, _, none, rfl, .inr (by simpa using hproblems)⟩
          rintro ⟨src', sheet', hreads⟩
          obtain rfl : sheet = sheet' := Except.ok.inj (hsheet.symm.trans hreads.read)
          simp [hreads.problems] at hproblems
        · next hproblems =>
          have hproblems : sheet.problems = [] := by simpa using hproblems
          refine .inr ⟨src, sheet, ⟨hparse, hbad, hsheet, hproblems⟩, ?_⟩
          simp only [hproblems, List.map_nil, List.append_nil]
          rw [if_neg (not_not.2 h.dialect)]
          split
          · next x _ => exact .inl ⟨w.listing, x, rfl⟩
          · next listing hlisting =>
            change listProgram w.dialect sheet.table w.use src.lines = .ok listing at hlisting
            have hflat := hlisting
            rw [h.dialect] at hflat
            cases listing with
            | refused found =>
              have hfound := refused_ne_nil hflat
              refine .inr
                (.inl ⟨w.firstErrors ++ w.texts found, by simpa [State.texts] using hfound,
                  ?_, rfl⟩)
              intro rows symbols hl
              cases hlisting.symm.trans hl
            | listed rows symbols =>
              obtain ⟨names₀, hnames⟩ :
                  ∃ names₀, namesTable .absoluteTwoPass symbols = .ok names₀ :=
                    exists_namesTable hflat
              rw [← h.dialect] at hnames
              obtain ⟨listing, names, -, heq⟩ | ⟨listing, x, -, heq⟩ :=
                showListing_cases { w with table := some sheet.table } sheet.table rows hnames
              · exact .inr (.inr ⟨rows, symbols, listing, names, hlisting, heq⟩)
              · exact .inl ⟨listing, x, heq⟩

theorem Basic.succeeds_iff (h : Basic w) :
    Succeeds w ↔ (basicFirst w).fault = none ∧
      (basicFirst w).window.firstErrors = w.firstErrors := by
  rw [Succeeds, h.firstPass]

theorem Basic.breaksOff_iff (h : Basic w) :
    BreaksOff w ↔ (basicFirst w).fault ≠ none ∨ ¬ ∃ src sheet, Reads w src sheet := by
  rw [BreaksOff, h.firstPass]

theorem Basic.not_succeeds_of_breaksOff (h : Basic w) (hb : BreaksOff w) : ¬ Succeeds w := by
  rw [h.breaksOff_iff] at hb
  rw [h.succeeds_iff]
  rintro ⟨hcalm, hquiet⟩
  obtain hnot := hb.resolve_left (not_not.2 hcalm)
  obtain ⟨-, firstErrors, fault, heq, hwrong⟩ | ⟨src, sheet, hreads, -⟩ := basicFirst_cases h
  · rw [heq] at hcalm hquiet
    exact hwrong.elim (absurd hcalm) (absurd hquiet)
  · exact hnot ⟨src, sheet, hreads⟩

theorem Basic.after_firstPass (h : Basic w) (rows : List Row) (symbols : Symbols)
    (table : OpTable) :
    Basic (basicFirst w).window ∧
      ((basicFirst w).window.rows = some rows ∧ (basicFirst w).window.symbols = some symbols ↔
        ListsAs rows symbols w ∨ (w.rows = some rows ∧ w.symbols = some symbols) ∧ BreaksOff w) ∧
      ((basicFirst w).window.table = some table ↔
        ReadsTable table w ∨ w.table = some table ∧ ¬ ∃ src sheet, Reads w src sheet) := by
  have hsucceeds := h.succeeds_iff
  have hbreaks := h.breaksOff_iff
  obtain ⟨hnot, firstErrors, fault, heq, -⟩ | ⟨src, sheet, hreads, hcase⟩ := basicFirst_cases h
  · have hlists : ¬ ListsAs rows symbols w :=
      fun ⟨_, src, sheet, hreads, _⟩ => hnot ⟨src, sheet, hreads⟩
    have htable : ¬ ReadsTable table w := fun ⟨src, sheet, hreads, _⟩ => hnot ⟨src, sheet, hreads⟩
    have hb : BreaksOff w := .inr hnot
    rw [heq]
    exact ⟨⟨h.dialect, h.control⟩, by simp [hlists, hb], by simp [htable, hnot]⟩
  · have hread : ∃ src sheet, Reads w src sheet := ⟨src, sheet, hreads⟩
    have htable : ReadsTable table w ↔ sheet.table = table := by
      refine ⟨fun ⟨src', sheet', hreads', htable⟩ => ?_, fun htable => ⟨src, sheet, hreads, htable⟩⟩
      rw [← htable, (hreads.unique hreads').2]
    have hlists : ListsAs rows symbols w ↔
        Succeeds w ∧ listProgram w.dialect sheet.table w.use src.lines =
          .ok (.listed rows symbols) := by
      refine ⟨fun ⟨hs, src', sheet', hreads', hl⟩ => ?_,
        fun ⟨hs, hl⟩ => ⟨hs, src, sheet, hreads, hl⟩⟩
      obtain ⟨rfl, rfl⟩ := hreads.unique hreads'
      exact ⟨hs, hl⟩
    rw [hlists, hsucceeds, hbreaks, htable]
    obtain ⟨listing, x, heq⟩ | ⟨firstErrors, hne, hnot, heq⟩ | ⟨rows', symbols', listing, names, hl,
        heq⟩ := hcase
    · rw [heq]
      exact ⟨⟨h.dialect, h.control⟩, by simp [upset], by simp [upset, hread]⟩
    · rw [heq]
      exact ⟨⟨h.dialect, h.control⟩, by simp [calm, hne, hread], by simp [calm, hread]⟩
    · rw [heq]
      exact ⟨⟨h.dialect, h.control⟩, by simp [calm, hl, hread], by simp [calm, hread]⟩

theorem Basic.after_other (h : Basic w) {e : Event} (he : e ≠ .click "firstPass") :
    Basic (react w e).window ∧ (react w e).window.rows = w.rows ∧
      (react w e).window.symbols = w.symbols ∧
      (react w e).window.table = w.table := by
  have hsame : ∀ r : Reaction, r.window = w → Basic r.window ∧ r.window.rows = w.rows ∧
      r.window.symbols = w.symbols ∧
      r.window.table = w.table := by
    rintro r rfl
    exact ⟨h, rfl, rfl, rfl⟩
  cases e with
  | editSource text =>
    simp only [react, changed, h.control]
    exact ⟨⟨h.dialect, rfl⟩, rfl, rfl, rfl⟩
  | setRows n => exact ⟨⟨h.dialect, h.control⟩, rfl, rfl, rfl⟩
  | editCell row column text =>
    simp only [react, sheetChanged, h.control]
    exact ⟨⟨h.dialect, rfl⟩, rfl, rfl, rfl⟩
  | clickSheet =>
    simp only [react, sheetChanged, h.control]
    exact hsame _ rfl
  | choose i =>
    have hnone : formHasChoice w.dialect = false := by rw [h.dialect]; rfl
    simp only [react, hnone]
    exact hsame _ rfl
  | click name =>
    rw [react]
    split
    · exact hsame _ rfl
    · next b hb =>
      split
      · next hbutton =>
        cases b with
        | firstPass => exact absurd (congrArg Event.click ((Button.eq_of_ofName? hb).1 rfl)) he
        | secondPass =>
          simp only [clicked, h.control]
          unfold basicSecond
          split
          · split
            · exact hsame _ rfl
            · exact ⟨⟨h.dialect, h.control⟩, rfl, rfl, rfl⟩
            · split <;> exact ⟨⟨h.dialect, h.control⟩, rfl, rfl, rfl⟩
          · exact ⟨⟨h.dialect, h.control⟩, rfl, rfl, rfl⟩
        | tracePass =>
          rw [h.dialect] at hbutton
          cases hbutton
        | clearFirst => exact ⟨⟨h.dialect, h.control⟩, rfl, rfl, rfl⟩
        | clearSecond => exact ⟨⟨h.dialect, h.control⟩, rfl, rfl, rfl⟩
      · exact hsame _ rfl

theorem Basic.listing_iff (h : Basic w₀) (hrows : w₀.rows = none) (rows : List Row)
    (symbols : Symbols) (events : List Event) :
    Basic (w₀.after events) ∧
      ((w₀.after events).rows = some rows ∧ (w₀.after events).symbols = some symbols ↔
      FirstClickedSince (ListsAs rows symbols) BreaksOff w₀ events) := by
  refine holds_iff_since (H := fun w => w.rows = some rows ∧ w.symbols = some symbols) h
    (by simp [hrows]) ?_ events
  intro w e hw
  by_cases he : e = .click "firstPass"
  · subst he
    obtain ⟨hkept, hlisting, -⟩ := hw.after_firstPass rows symbols ∅
    rw [hw.firstPass]
    simp only [true_and, true_implies]
    exact ⟨hkept, hlisting⟩
  · obtain ⟨hkept, hrows, hsymbols, -⟩ := hw.after_other he
    rw [hrows, hsymbols]
    simpa [he] using hkept

theorem Basic.table_iff (h : Basic w₀) (hnone : w₀.table = none) (table : OpTable)
    (events : List Event) :
    (w₀.after events).table = some table ↔
      FirstClickedSince (ReadsTable table) (fun w => ¬ ∃ src sheet, Reads w src sheet) w₀
        events := by
  refine (holds_iff_since (I := Basic) (H := fun w => w.table = some table) h (by simp [hnone])
    (fun w e hw => ?_) events).2
  by_cases he : e = .click "firstPass"
  · subst he
    obtain ⟨hkept, -, htable⟩ := hw.after_firstPass [] (.flat ∅) table
    rw [hw.firstPass]
    simp only [true_and, true_implies]
    exact ⟨hkept, htable⟩
  · obtain ⟨hkept, -, -, htable⟩ := hw.after_other he
    rw [htable]
    simpa [he] using hkept

/-- A click on the second button puts code into the window, whatever was shown there. -/
def PutsCode (code : List String) (w : State) : Prop :=
  ∀ shown, (react { w with code := shown } (.click "secondPass")).window.code = code

theorem made_ne_nil {d : Dialect} {dir : Directory} {records : List ObjectRecord}
    {ms : List Modification} (h : TwoPass.FlatCode.make d dir table rows = .ok (.made records ms)) :
    records ≠ [] := by
  unfold TwoPass.FlatCode.make at h
  split at h
  · obtain ⟨e, -, hmade⟩ := (map_eq_ok_iff _ _ _).1 h
    unfold ObjectProgram.unlessFound at hmade
    split at hmade
    · obtain ⟨rfl, -⟩ := ObjectProgram.made.inj hmade
      simp
    · cases hmade
  · cases h

theorem Basic.putsCode_iff (h : Basic w) (code : List String) :
    PutsCode code w ↔ ∃ rows symbols table records ms,
      (w.rows = some rows ∧ w.symbols = some symbols) ∧ w.table = some table ∧
      makeCode .absoluteTwoPass (.ofSymbols symbols) table rows = .ok (.made records ms) ∧
      code = records.map (·.text Dialect.absoluteTwoPass.codeStyle) := by
  have hclick :
      ∀ shown, react { w with code := shown } (.click "secondPass") =
        basicSecond { w with code := shown } :=
    fun shown => Basic.secondPass ⟨h.dialect, h.control⟩
  unfold PutsCode
  simp only [hclick]
  constructor
  · intro hputs
    have hkept : ¬ ∀ shown, (basicSecond { w with code := shown }).window.code = shown :=
      fun hsame => by
      have hnil := (hputs []).symm.trans (hsame [])
      have hone := (hputs [""]).symm.trans (hsame [""])
      cases hnil.symm.trans hone
    unfold basicSecond at hputs hkept
    dsimp only at hputs hkept
    cases hrows : w.rows with
    | none => simp [hrows, calm] at hkept
    | some rows =>
      cases hsymbols : w.symbols with
      | none => simp [hrows, hsymbols, calm] at hkept
      | some symbols =>
        cases htable : w.table with
        | none => simp [hrows, hsymbols, htable, calm] at hkept
        | some table =>
          simp only [hrows, hsymbols, htable, h.dialect] at hputs hkept
          cases hmake : makeCode .absoluteTwoPass (.ofSymbols symbols) table rows with
          | error x => simp [hmake, upset] at hkept
          | ok program =>
            cases program with
            | refused found => simp [hmake, calm] at hkept
            | made records ms =>
              have hne : records ≠ [] := made_ne_nil hmake
              refine ⟨rows, symbols, table, records, ms, ⟨rfl, rfl⟩, rfl, hmake, ?_⟩
              simpa [hmake, hne, calm] using (hputs []).symm
  · rintro ⟨rows, symbols, table, records, ms, ⟨hrows, hsymbols⟩, htable, hmake, rfl⟩ shown
    have hne : records ≠ [] := made_ne_nil hmake
    simp [basicSecond, hrows, hsymbols, htable, h.dialect, hmake, hne, calm]

theorem firstClickedLast_concat (P : State → Prop) (events : List Event) (e : Event) :
    FirstClickedLast P w₀ (events ++ [e]) ↔
      e = .click "firstPass" ∧ P (w₀.after events) ∨ FirstClickedLast P w₀ events ∧
      e ≠ .click "firstPass" := by
  unfold FirstClickedLast FirstClickedSince
  exact since_concat _ _ w₀ events e

theorem Basic.last_iff (h : Basic w₀) (hrows : w₀.rows = none) {events : List Event}
    (hlisted : FirstClickedSince (ListsAs rows symbols) BreaksOff w₀ events) :
    FirstClickedLast Succeeds w₀ events ↔ ¬ FirstClickedLast BreaksOff w₀ events := by
  induction events using List.reverseRecOn with
  | nil => exact absurd hlisted (not_since_nil _ _ w₀)
  | append_singleton events e ih =>
    have hbasic := (h.listing_iff hrows rows symbols events).1
    rw [firstClickedLast_concat, firstClickedLast_concat]
    by_cases he : e = .click "firstPass"
    · have hcase := (since_concat _ _ w₀ events e).1 hlisted
      have hnot := hbasic.not_succeeds_of_breaksOff
      simp only [he, true_and, true_implies, ne_eq, not_true_eq_false, and_false, or_false]
        at hcase ⊢
      obtain hlists | ⟨-, hbreaks⟩ := hcase
      · exact iff_of_true hlists.1 fun hbreaks => hnot hbreaks hlists.1
      · exact iff_of_false (hnot hbreaks) (not_not.2 hbreaks)
    · have hbefore := ((since_concat _ _ w₀ events e).1 hlisted).resolve_left fun hP => he hP.1
      simpa [he] using ih hbefore.1

/-- When a second pass of the plain absolute assembler puts code into its window: the last first
pass that did not break off succeeded, and its listing can be turned into code under the last table
that was read.  The most recent first pass of all then succeeded, unless it broke off. -/
theorem put_code_iff (hopen : State.create .absoluteTwoPass (.ofDialect .absoluteTwoPass) = .ok w₀)
    (events : List Event) (code : List String) :
    (PutsCode code (w₀.after events) ↔ ∃ rows symbols table records ms,
      FirstClickedSince (ListsAs rows symbols) BreaksOff w₀ events ∧
      FirstClickedSince (ReadsTable table) (fun w => ¬ ∃ src sheet, Reads w src sheet) w₀ events ∧
      makeCode .absoluteTwoPass (.ofSymbols symbols) table rows = .ok (.made records ms) ∧
      code = records.map (·.text Dialect.absoluteTwoPass.codeStyle)) ∧
    (PutsCode code (w₀.after events) →
      (FirstClickedLast Succeeds w₀ events ↔ ¬ FirstClickedLast BreaksOff w₀ events)) := by
  obtain rfl : State.blank .absoluteTwoPass .basic = w₀ := Except.ok.inj hopen
  have hnew : Basic (.blank .absoluteTwoPass .basic) := ⟨rfl, rfl⟩
  have hbasic := fun rows symbols => hnew.listing_iff rfl rows symbols events
  have htable := fun table => hnew.table_iff rfl table events
  have hputs := (hbasic [] (.flat ∅)).1.putsCode_iff code
  simp only [(hbasic _ _).2, htable] at hputs
  refine ⟨hputs, fun hcode => ?_⟩
  obtain ⟨rows, symbols, table, records, ms, hlisted, -⟩ := hputs.1 hcode
  exact hnew.last_iff rfl hlisted

/-- After a first pass that succeeds the source is spoilt, and the next first pass stops at it. -/
def spoiltRun : List Event :=
  [.editSource "P: START 1\n NOP\n END\n", .click "firstPass",
    .editSource "P: START 1\n 5 NOP\n END\n", .click "firstPass"]

/-- The listing of the source before it was spoilt. -/
def soundRows : List Row :=
  [⟨1, ⟨some "P", ⟨"START", [.number 1]⟩⟩, none⟩, ⟨1, ⟨none, ⟨"NOP", []⟩⟩, none⟩,
    ⟨2, ⟨none, ⟨"END", []⟩⟩, none⟩]

/-- The second pass makes the code of the earlier source all the same. -/
theorem spoiltRun_puts :
    ∃ w₀, State.create .absoluteTwoPass (.ofDialect .absoluteTwoPass) = .ok w₀ ∧
    PutsCode ["H P 000001 1", "T 000001 1 24", "E 000001"] (w₀.after spoiltRun) ∧
    FirstClickedLast BreaksOff w₀ spoiltRun ∧ ¬ FirstClickedLast Succeeds w₀ spoiltRun := by
  have hnew : Basic (.blank .absoluteTwoPass .basic) := ⟨rfl, rfl⟩
  have hbasic := (hnew.listing_iff rfl [] (.flat ∅) spoiltRun).1
  have hputs := (hbasic.putsCode_iff _).2 ⟨soundRows, .flat ∅, offered.table,
    [.header (some "P") 1 (some 1), .code 1 1 36 "", .finish 1],
    [], by decide +kernel, by decide +kernel, by decide +kernel, rfl⟩
  have hbad :
      (Source.parse (State.after (.blank .absoluteTwoPass .basic) spoiltRun.dropLast).dialect
        (State.after (.blank .absoluteTwoPass .basic) spoiltRun.dropLast).source).map
          (·.bad.isEmpty) = .ok false := by
    decide +kernel
  have hbreaks : FirstClickedLast BreaksOff (.blank .absoluteTwoPass .basic) spoiltRun := by
    refine ⟨spoiltRun.dropLast, _, [], rfl, ⟨rfl, .inr ?_⟩, by simp⟩
    rintro ⟨src, sheet, hreads⟩
    rw [hreads.parsed, map_ok, hreads.bad] at hbad
    cases hbad
  exact ⟨_, rfl, hputs, hbreaks, fun hs => ((put_code_iff rfl spoiltRun _).2 hputs).1 hs hbreaks⟩

/-! ## The guarded control -/

/-- A window under the guarded control of a dialect that goes with it. -/
structure Guarded (layout : Layout) (w : State) : Prop where
  dialect : w.dialect = ⟨layout, .twoPass⟩
  control : w.control = .guarded

theorem Guarded.firstPass (h : Guarded layout w) :
    react w (.click "firstPass") = guardedFirst w := by
  simp [react, Button.ofName?, h.dialect, h.control, formButtons, clicked]

theorem Guarded.secondPass (h : Guarded layout w) :
    react w (.click "secondPass") = guardedSecond w := by
  simp [react, Button.ofName?, h.dialect, h.control, formButtons, clicked]

/-- The second button can be clicked exactly if a first pass has been done and no second one. -/
def ButtonAgrees (w : State) : Prop :=
  w.secondEnabled = true ↔ w.firstDone = true ∧ w.secondDone = false

/-- The first pass has a listing, whether or not the window can show it. -/
def HasListing (w : State) : Prop :=
  ∃ src sheet rows symbols, Reads w src sheet ∧
    listProgram w.dialect sheet.table w.use src.lines = .ok (.listed rows symbols)

/-- A first pass ends in a fault while the second button cannot be clicked, and leaves a first pass
noted as done. -/
def Strands (w : State) : Prop :=
  (react w (.click "firstPass")).fault ≠ none ∧ w.secondEnabled = false ∧
    (w.firstDone = true ∨ HasListing w)

/-- An event brings the second button up to date: a change, or a pass that comes to its end. -/
def Refreshes (w : State) (e : Event) : Prop :=
  e.changes = true ∨ (react w e).fault = none ∧
    (e = .click "firstPass" ∨ e = .click "secondPass" ∧ w.rows ≠ none ∧ w.symbols ≠ none ∧
      w.table ≠ none)

/-- The second button is not offered although it ought to be. -/
structure Stranded (w : State) : Prop where
  first : w.firstDone = true
  second : w.secondDone = false
  button : w.secondEnabled = false

/-- The second button is offered only if it ought to be. -/
structure Offers (layout : Layout) (w : State) : Prop extends Guarded layout w where
  offered : w.secondEnabled = true → w.firstDone = true ∧ w.secondDone = false

theorem Offers.agrees_iff (h : Offers layout w) : ButtonAgrees w ↔ ¬ Stranded w := by
  have hoffered := h.offered
  constructor
  · rintro hagrees ⟨hfirst, hsecond, hbutton⟩
    exact Bool.false_ne_true (hbutton.symm.trans (hagrees.2 ⟨hfirst, hsecond⟩))
  · refine fun hnot => ⟨hoffered, fun hdone => ?_⟩
    by_contra hbutton
    exact hnot ⟨hdone.1, hdone.2, by simpa using hbutton⟩

theorem Guarded.offers_refresh (h : Guarded layout w) :
    Offers layout w.refresh ∧ ¬ Stranded w.refresh := by
  refine ⟨⟨⟨h.dialect, h.control⟩, fun he => by simpa [State.refresh] using he⟩, fun hs => ?_⟩
  have hfirst : w.firstDone = true := hs.first
  have hsecond : w.secondDone = false := hs.second
  have hbutton := hs.button
  simp [State.refresh, hfirst, hsecond] at hbutton

theorem Guarded.guardedListing_cases {program : List Line} {use : NameUse} (h : Guarded layout w)
    (hlisted : listProgram ⟨layout, .twoPass⟩ table use program = .ok (.listed rows symbols)) :
    (∃ v, guardedListing w table (.listed rows symbols) = calm v.refresh ∧ Guarded layout v) ∨
    ∃ v x, guardedListing w table (.listed rows symbols) = upset v x ∧ Guarded layout v ∧
      v.secondEnabled = w.secondEnabled ∧ v.secondDone = w.secondDone ∧ v.firstDone = true := by
  obtain ⟨names₀, hnames⟩ := exists_namesTable hlisted
  rw [← h.dialect] at hnames
  rw [guardedListing]
  obtain ⟨listing, names, -, heq⟩ | ⟨listing, x, -, heq⟩ :=
    showListing_cases { w with firstDone := true } table rows hnames
  · rw [heq]
    exact .inl ⟨_, rfl, h.dialect, h.control⟩
  · rw [heq]
    exact .inr ⟨_, x, rfl, ⟨h.dialect, h.control⟩, rfl, rfl, rfl⟩

theorem Guarded.guardedFirst_cases (h : Guarded layout w) :
    (∃ v, guardedFirst w = calm v.refresh ∧ Guarded layout v) ∨
    ∃ v x, guardedFirst w = upset v x ∧ Guarded layout v ∧ v.secondEnabled = w.secondEnabled ∧
    v.secondDone = false ∧
      (v.firstDone = true ↔ w.firstDone = true ∨ HasListing w) := by
  have hnone : ¬ (∃ src sheet, Reads w src sheet) → ¬ HasListing w :=
    fun hnot ⟨src, sheet, _, _, hreads, _⟩ => hnot ⟨src, sheet, hreads⟩
  unfold guardedFirst
  dsimp only
  split
  · next x hparse =>
    exact .inr ⟨_, x, rfl, ⟨h.dialect, h.control⟩, rfl,
      rfl, by simp [hnone (not_reads_of_parse hparse)]⟩
  · next src hparse =>
    split
    · exact .inl ⟨_, rfl, h.dialect, h.control⟩
    · next hbad =>
      split
      · next x hsheet =>
        exact .inr ⟨_, x, rfl, ⟨h.dialect, h.control⟩, rfl,
          rfl, by simp [hnone (not_reads_of_sheet (w := w) hsheet)]⟩
      · next sheet hsheet =>
        split
        · exact .inl ⟨_, rfl, h.dialect, h.control⟩
        · next hproblems =>
          have hreads : Reads w src sheet :=
            ⟨hparse, by simpa using hbad, hsheet, by simpa using hproblems⟩
          split
          · next x hfails =>
            change listProgram w.dialect sheet.table w.use src.lines = .error x at hfails
            have hnot : ¬ HasListing w := by
              rintro ⟨src', sheet', rows, symbols, hreads', hlisted⟩
              obtain ⟨rfl, rfl⟩ := hreads.unique hreads'
              cases hfails.symm.trans hlisted
            exact .inr ⟨_, x, rfl, ⟨h.dialect, h.control⟩, rfl, rfl, by simp [hnot]⟩
          · next listing hlisting =>
            change listProgram w.dialect sheet.table w.use src.lines = .ok listing at hlisting
            cases listing with
            | refused found => exact .inl ⟨_, rfl, h.dialect, h.control⟩
            | listed rows symbols =>
              have hflat := hlisting
              rw [h.dialect] at hflat
              refine Or.imp id ?_ (Guarded.guardedListing_cases ⟨h.dialect, h.control⟩ hflat)
              rintro ⟨v, x, heq, hv, hbutton, hsecond, hfirst⟩
              exact ⟨v, x, heq, hv, hbutton, hsecond,
                iff_of_true hfirst (.inr ⟨src, sheet, rows, symbols, hreads, hlisting⟩)⟩

theorem Guarded.guardedSecond_cases (h : Guarded layout w) :
    (∃ v, guardedSecond w = calm v.refresh ∧ Guarded layout v ∧ w.rows ≠ none ∧ w.symbols ≠ none ∧
      w.table ≠ none) ∨
    (Guarded layout (guardedSecond w).window ∧
      (guardedSecond w).window.secondEnabled = w.secondEnabled ∧
      (guardedSecond w).window.firstDone = w.firstDone ∧
      (guardedSecond w).window.secondDone = w.secondDone ∧
      ((guardedSecond w).fault ≠ none ∨
        ¬ (w.rows ≠ none ∧ w.symbols ≠ none ∧ w.table ≠ none))) := by
  unfold guardedSecond
  split
  · next rows symbols table hrows hsymbols htable =>
    have hsome : w.rows ≠ none ∧ w.symbols ≠ none ∧ w.table ≠ none := by
      simp [hrows, hsymbols, htable]
    dsimp only
    split
    · exact .inr ⟨⟨h.dialect, h.control⟩, rfl, rfl, rfl, .inl nofun⟩
    · exact .inl ⟨_, rfl, ⟨h.dialect, h.control⟩, hsome⟩
    · next records ms _ =>
      obtain ⟨modifications, hshow⟩ :=
        showCode_eq { w with code := [], secondErrors := [] } rfl records ms
      rw [hshow]
      exact .inl ⟨_, rfl, ⟨h.dialect, h.control⟩, hsome⟩
  · next hnone =>
    refine .inr ⟨⟨h.dialect, h.control⟩, rfl, rfl, rfl, .inr ?_⟩
    rintro ⟨hrows, hsymbols, htable⟩
    obtain ⟨rows, hrows⟩ := Option.ne_none_iff_exists'.1 hrows
    obtain ⟨symbols, hsymbols⟩ := Option.ne_none_iff_exists'.1 hsymbols
    obtain ⟨table, htable⟩ := Option.ne_none_iff_exists'.1 htable
    exact hnone rows symbols table hrows hsymbols htable

theorem Offers.of_eq {v : State} (h : Offers layout w) (hv : Guarded layout v)
    (hbutton : v.secondEnabled = w.secondEnabled) (hfirst : v.firstDone = w.firstDone)
    (hsecond : v.secondDone = w.secondDone) :
    Offers layout v ∧ (Stranded v ↔ Stranded w) := by
  refine ⟨⟨hv, by rw [hbutton, hfirst, hsecond]; exact h.offered⟩, fun hs => ?_, fun hs => ?_⟩
  · exact ⟨hfirst ▸ hs.first, hsecond ▸ hs.second, hbutton ▸ hs.button⟩
  · exact ⟨hfirst.trans hs.first, hsecond.trans hs.second, hbutton.trans hs.button⟩

theorem Offers.firstPass_iff (h : Offers layout w) : Offers layout (guardedFirst w).window ∧
    (Stranded (guardedFirst w).window ↔ Strands w ∨ Stranded w ∧
      (guardedFirst w).fault ≠ none) := by
  unfold Strands
  rw [h.firstPass]
  obtain ⟨v, heq, hv⟩ | ⟨v, x, heq, hv, hbutton, hsecond, hfirst⟩ := h.guardedFirst_cases
  · rw [heq]
    obtain ⟨hoffers, hnot⟩ := hv.offers_refresh
    exact ⟨hoffers, iff_of_false hnot (by simp [calm])⟩
  · rw [heq]
    refine ⟨⟨hv, fun he => ⟨hfirst.2 (.inl (h.offered (hbutton ▸ he)).1), hsecond⟩⟩, fun hs => ?_,
      fun hs => ?_⟩
    · exact .inl ⟨Option.some_ne_none x, hbutton ▸ hs.button, hfirst.1 hs.first⟩
    · obtain ⟨-, hoff, hnoted⟩ | ⟨hs, -⟩ := hs
      · exact ⟨hfirst.2 hnoted, hsecond, hbutton.trans hoff⟩
      · exact ⟨hfirst.2 (.inl hs.first), hsecond, hbutton.trans hs.button⟩

theorem Offers.secondPass_iff (h : Offers layout w) : Offers layout (guardedSecond w).window ∧
    (Stranded (guardedSecond w).window ↔
      Stranded w ∧
      ¬ ((guardedSecond w).fault = none ∧ w.rows ≠ none ∧ w.symbols ≠ none ∧ w.table ≠ none)) := by
  obtain ⟨v, heq, hv, hsome⟩ | ⟨hv, hbutton, hfirst, hsecond, hwhy⟩ := h.guardedSecond_cases
  · rw [heq]
    obtain ⟨hoffers, hnot⟩ := hv.offers_refresh
    exact ⟨hoffers, iff_of_false hnot fun hs => hs.2 ⟨rfl, hsome⟩⟩
  · obtain ⟨hoffers, hsame⟩ := h.of_eq hv hbutton hfirst hsecond
    refine ⟨hoffers, hsame.trans (and_iff_left ?_).symm⟩
    rintro ⟨hcalm, hsome⟩
    exact hwhy.elim (absurd hcalm) (absurd hsome)

/-- A change leaves no button behind. -/
theorem Offers.changed (h : Offers layout w) :
    Offers layout (changed w).window ∧ ¬ Stranded (changed w).window := by
  simp only [Window.changed, h.control]
  unfold guardedChange
  split
  · exact Guarded.offers_refresh ⟨h.dialect, h.control⟩
  · next hnone =>
    refine ⟨h, fun hs => hnone ?_⟩
    rw [Bool.or_eq_true]
    exact .inl hs.first

/-- What one event does to the second button. -/
theorem Offers.react (hl : layout ≠ .absolute) (h : Offers layout w) (e : Event) :
    Offers layout (react w e).window ∧ (Stranded (react w e).window ↔
      (e = .click "firstPass" ∧ Strands w) ∨ Stranded w ∧ ¬ Refreshes w e) := by
  by_cases hfirst : e = .click "firstPass"
  · subst hfirst
    have hstep := h.firstPass_iff
    rw [← h.firstPass] at hstep
    simpa [Refreshes, Event.changes] using hstep
  by_cases hsecond : e = .click "secondPass"
  · subst hsecond
    have hstep := h.secondPass_iff
    rw [← h.secondPass] at hstep
    simpa [Refreshes, Event.changes] using hstep
  by_cases hchanges : e.changes = true
  · have hstep : Offers layout (Window.react w e).window ∧
        ¬ Stranded (Window.react w e).window := by
      cases e with
      | editSource text => exact Offers.changed ⟨⟨h.dialect, h.control⟩, h.offered⟩
      | choose i =>
        have hchoice : formHasChoice w.dialect = true := by
          rw [h.dialect]
          simpa [formHasChoice] using hl
        rw [Window.react, if_pos hchoice]
        exact Offers.changed ⟨⟨h.dialect, h.control⟩, h.offered⟩
      | _ => cases hchanges
    exact ⟨hstep.1, iff_of_false hstep.2 (by simp [hfirst, Refreshes, hchanges])⟩
  · have hrest : ¬ Refreshes w e := by simp [Refreshes, hchanges, hfirst, hsecond]
    have hstep : Offers layout (Window.react w e).window ∧
        (Stranded (Window.react w e).window ↔ Stranded w) := by
      have hkeep : Offers layout w ∧ (Stranded w ↔ Stranded w) := ⟨h, Iff.rfl⟩
      cases e with
      | setRows n => exact h.of_eq ⟨h.dialect, h.control⟩ rfl rfl rfl
      | editCell row column text =>
        simp only [Window.react, sheetChanged, h.control]
        exact h.of_eq ⟨h.dialect, rfl⟩ rfl rfl rfl
      | clickSheet =>
        simp only [Window.react, sheetChanged, h.control]
        exact hkeep
      | click name =>
        rw [Window.react]
        split
        · exact hkeep
        · next b hb =>
          obtain ⟨hfirstName, hsecondName⟩ := Button.eq_of_ofName? hb
          split
          · next hbutton =>
            cases b with
            | firstPass => exact absurd (congrArg Event.click (hfirstName rfl)) hfirst
            | secondPass => exact absurd (congrArg Event.click (hsecondName rfl)) hsecond
            | tracePass =>
              rw [h.dialect] at hbutton
              cases hbutton
            | clearFirst => exact h.of_eq ⟨h.dialect, h.control⟩ rfl rfl rfl
            | clearSecond => exact h.of_eq ⟨h.dialect, h.control⟩ rfl rfl rfl
          · exact hkeep
      | _ => exact absurd rfl hchanges
    refine ⟨hstep.1, hstep.2.trans ?_⟩
    simp [hfirst, hrest]

/-- When the second button of a guarded window agrees with its flags: unless a first pass ended in a
fault while the button could not be clicked, with a first pass done before or with a listing that
could not be shown, and nothing has brought the button up to date since.  It is never offered out of
turn. -/
theorem second_button_agrees_iff {d : Dialect} (hd : Control.ofDialect d = .guarded)
    (hopen : State.create d .guarded = .ok w₀) (events : List Event) :
    (ButtonAgrees (w₀.after events) ↔
      ¬ Since (fun w e => e = .click "firstPass" ∧ Strands w) (fun w e => ¬ Refreshes w e) w₀
        events) ∧
    ((w₀.after events).secondEnabled = true →
      (w₀.after events).firstDone = true ∧ (w₀.after events).secondDone = false) := by
  obtain ⟨layout, strategy⟩ := d
  obtain rfl : strategy = .twoPass := by
    cases strategy with
    | twoPass => rfl
    | onePass => cases hd
  have hl : layout ≠ .absolute := by
    rintro rfl
    cases hd
  obtain rfl : (State.blank ⟨layout, .twoPass⟩ .guarded).refresh = w₀ := Except.ok.inj hopen
  have hnew : Guarded layout (State.blank ⟨layout, .twoPass⟩ .guarded) := ⟨rfl, rfl⟩
  obtain ⟨hoffers, hstranded⟩ := holds_iff_since hnew.offers_refresh.1 hnew.offers_refresh.2
    (fun w e hw => hw.react hl e) events
  exact ⟨hoffers.agrees_iff.trans (not_congr hstranded), hoffers.offered⟩

/-- Both passes are done, then a cell of the sheet is spoilt and the first pass is tried again. -/
def spoiltSheetRun : List Event :=
  [.editSource "P: START\n NOP\n END\n", .click "firstPass", .click "secondPass", .editCell 0 1 "x",
    .click "firstPass"]

/-- The second button stays off although the window counts the first pass as done and the second one
as not. -/
theorem spoiltSheetRun_disagrees : ∃ w₀, State.create ⟨.relocatable, .twoPass⟩ .guarded = .ok w₀ ∧
    Control.ofDialect ⟨.relocatable, .twoPass⟩ = .guarded ∧
    (w₀.after spoiltSheetRun).firstDone = true ∧
    (w₀.after spoiltSheetRun).secondDone = false ∧ (w₀.after spoiltSheetRun).secondEnabled = false ∧
    Since (fun w e => e = .click "firstPass" ∧ Strands w) (fun w e => ¬ Refreshes w e) w₀
      spoiltSheetRun := by
  have hfirst :
      (State.after (State.blank ⟨.relocatable, .twoPass⟩ .guarded).refresh
        spoiltSheetRun).firstDone = true := by
    decide +kernel
  have hsecond :
      (State.after (State.blank ⟨.relocatable, .twoPass⟩ .guarded).refresh
        spoiltSheetRun).secondDone = false := by
    decide +kernel
  have hbutton :
      (State.after (State.blank ⟨.relocatable, .twoPass⟩ .guarded).refresh
        spoiltSheetRun).secondEnabled = false := by
    decide +kernel
  refine ⟨_, rfl, rfl, hfirst, hsecond, hbutton, ?_⟩
  by_contra hnot
  have hagrees :=
    (second_button_agrees_iff (d := ⟨.relocatable, .twoPass⟩) rfl rfl spoiltSheetRun).1.2 hnot
  exact Bool.false_ne_true (hbutton.symm.trans (hagrees.2 ⟨hfirst, hsecond⟩))

end Assembler.Window
