import Mathlib.Data.List.Induction
import Assembler.Window.Event

/-! # What a stepping window shows

A stepping window prepares a run whenever something changes, and from then on shows snapshots of
that run.  So what it shows belongs to the source and the choice at hand (`Follows`), and also to
the sheet if rows of it were only written into and none added or cut off (`shown_code_current`).
Lines that cannot be read are left out of the run and do not keep it from being shown
(`shown_code_iff`). -/

namespace Assembler.Window
open Assembler
set_option autoImplicit false

variable {d : Dialect} {w : State} {e : Event} {src : Source} {table : OpTable}

/-! ## One event -/

/-- The run over lines under an operation table, as the window prepares it. -/
def State.runOver (w : State) (table : OpTable) (src : Source) : OnePass.Trace :=
  traceProgram w.dialect.layout table w.use src.lines

def snapshotCode (layout : Layout) (s : OnePass.Snapshot) : List String :=
  (s.records.getD []).map (·.text layout.traceStyle)

/-- What is shown, and what is still to come, are snapshots of the run over the source under a
table. -/
structure Follows (w : State) (table : OpTable) (src : Source) : Prop where
  parsed : Source.parse w.dialect w.source = .ok src
  session : ∀ rest, w.session = .running rest → rest.snapshots <:+ (w.runOver table src).snapshots
  code : w.code ≠ [] → ∃ s ∈ (w.runOver table src).snapshots,
    w.code = snapshotCode w.dialect.layout s

/-- Nothing is shown and nothing is to come. -/
structure Rests (w : State) : Prop where
  session : ∀ rest, w.session ≠ .running rest
  code : w.code = []

/-- What the owner has typed, and the kind of window. -/
structure SameInput (w w' : State) : Prop where
  dialect : w'.dialect = w.dialect
  control : w'.control = w.control
  source : w'.source = w.source
  choice : w'.choice = w.choice

theorem SameInput.refl (w : State) : SameInput w w := ⟨rfl, rfl, rfl, rfl⟩

theorem SameInput.runOver_eq {w' : State} (h : SameInput w w') (table : OpTable) (src : Source) :
    w'.runOver table src = w.runOver table src := by
  simp only [State.runOver, State.use, h.dialect, h.choice]

/-- A handler that shows only snapshots of the run in hand, if it shows anything. -/
structure GoesOn (w w' : State) : Prop where
  same : SameInput w w'
  sheet : w'.sheet = w.sheet
  rests : Rests w → Rests w'
  follows : ∀ table src, Follows w table src → Follows w' table src

theorem GoesOn.refl (w : State) : GoesOn w w := ⟨.refl w, rfl, id, fun _ _ => id⟩

theorem follows_of_suffix (h : Follows w table src) {w' : State} (hsame : SameInput w w')
    (hsession : ∀ rest, w'.session = .running rest →
      rest.snapshots <:+ (w.runOver table src).snapshots)
    (hcode : w'.code = w.code ∨ ∃ s ∈ (w.runOver table src).snapshots,
      w'.code = snapshotCode w.dialect.layout s) :
    Follows w' table src := by
  refine ⟨by rw [hsame.dialect, hsame.source, h.parsed], by rwa [hsame.runOver_eq], fun hne => ?_⟩
  rw [hsame.runOver_eq, hsame.dialect]
  rcases hcode with hcode | hcode
  · rw [hcode] at hne ⊢
    exact h.code hne
  · exact hcode

theorem showSnapshot_spec (w : State) (s : OnePass.Snapshot) :
    SameInput w (showSnapshot w s).window ∧ (showSnapshot w s).window.sheet = w.sheet ∧
      (showSnapshot w s).window.session = w.session ∧
      (showSnapshot w s).window.code = snapshotCode w.dialect.layout s := by
  unfold showSnapshot
  dsimp only
  split <;> exact ⟨⟨rfl, rfl, rfl, rfl⟩, rfl, rfl, rfl⟩

theorem goesOn_showSnapshot {rest left : OnePass.Trace} {s : OnePass.Snapshot}
    (hw : w.session = .running rest) (hs : s ∈ rest.snapshots)
    (hleft : left.snapshots <:+ rest.snapshots) :
    GoesOn w (showSnapshot { w with session := .running left } s).window := by
  obtain ⟨hsame, hsheet, hsession, hcode⟩ := showSnapshot_spec { w with session := .running left } s
  refine ⟨⟨hsame.dialect, hsame.control, hsame.source, hsame.choice⟩, hsheet,
    fun h => absurd hw (h.session rest), fun table src h => ?_⟩
  have hrest := h.session rest hw
  refine follows_of_suffix h ⟨hsame.dialect, hsame.control, hsame.source, hsame.choice⟩
    (fun r hr => ?_) (.inr ⟨s, ?_, hcode⟩)
  · rw [hsession] at hr
    obtain rfl := Session.running.inj hr
    exact hleft.trans hrest
  · exact hrest.mem hs

theorem goesOn_session {session : Session}
    (hs : session = w.session ∨ session = .running .nothing ∧ ∃ rest, w.session = .running rest) :
    GoesOn w { w with session } := by
  refine ⟨⟨rfl, rfl, rfl, rfl⟩, rfl, fun h => ⟨fun rest hrest => ?_, h.code⟩, fun table src h => ?_⟩
  · rcases hs with hs | ⟨-, rest', hw⟩
    · exact h.session rest (hs ▸ hrest)
    · exact h.session rest' hw
  · refine follows_of_suffix h ⟨rfl, rfl, rfl, rfl⟩ (fun rest hrest => ?_) (.inl rfl)
    rcases hs with hs | ⟨hs, -⟩
    · exact h.session rest (hs ▸ hrest)
    · change session = .running rest at hrest
      rw [hs] at hrest
      obtain rfl := Session.running.inj hrest
      exact List.nil_suffix

theorem goesOn_runOut (w : State) : GoesOn w (runOut w).window := by
  unfold runOut
  split
  · exact .refl w
  · exact .refl w
  · next rest hw =>
    have hgiven := goesOn_session (w := w) (.inr ⟨rfl, rest, hw⟩)
    dsimp only
    split
    · split <;> exact hgiven
    · split
      · next s hs => exact goesOn_showSnapshot hw (List.mem_of_getLast? hs) List.nil_suffix
      · exact hgiven

theorem window_stepFault (w : State) (x : Fault) : (stepFault w x).window = w := by
  unfold stepFault
  split <;> rfl

theorem goesOn_stepOn (w : State) : GoesOn w (stepOn w).window := by
  unfold stepOn
  split
  · exact .refl w
  · rw [window_stepFault]
    exact .refl w
  · next rest hw =>
    split
    · next s more x hmore =>
      exact goesOn_showSnapshot hw (by simp [hmore]) (by simp [hmore])
    · rw [window_stepFault]
      exact goesOn_session (.inr ⟨rfl, rest, hw⟩)
    · exact .refl w

/-- A change takes everything back and prepares a run, if the sheet is in order. -/
theorem steppingChange_spec (w : State) :
    SameInput w (steppingChange w).window ∧ (steppingChange w).window.sheet = w.sheet ∧
      (Rests (steppingChange w).window ∨ ∃ src sheet, w.readSheet = .ok sheet ∧
        sheet.problems = [] ∧
        Follows (steppingChange w).window sheet.table src) := by
  unfold steppingChange
  dsimp only
  split
  · exact ⟨⟨rfl, rfl, rfl, rfl⟩, rfl, .inl ⟨nofun, rfl⟩⟩
  · next src hparse =>
    split
    · exact ⟨⟨rfl, rfl, rfl, rfl⟩, rfl, .inl ⟨nofun, rfl⟩⟩
    · next sheet hsheet =>
      split
      · exact ⟨⟨rfl, rfl, rfl, rfl⟩, rfl, .inl ⟨nofun, rfl⟩⟩
      · next hproblems =>
        refine ⟨⟨rfl, rfl, rfl, rfl⟩, rfl,
          .inr ⟨src, sheet, hsheet, by simpa using hproblems, hparse, ?_, ?_⟩⟩
        · intro rest hrest
          obtain rfl := Session.running.inj hrest
          exact List.suffix_rfl
        · exact fun hne => absurd rfl hne

/-- The window follows a run under the table that its sheet gives. -/
def Prepared (w : State) : Prop :=
  ∃ src sheet, w.readSheet = .ok sheet ∧ sheet.problems = [] ∧ Follows w sheet.table src

theorem readSheet_congr {w' : State} (hdialect : w'.dialect = w.dialect)
    (hcontrol : w'.control = w.control) (hsheet : w'.sheet = w.sheet) :
    w'.readSheet = w.readSheet := by
  simp only [State.readSheet, State.sizes, State.sheetRows, hdialect, hcontrol, hsheet]

theorem steppingChange_prepares (w : State) : (steppingChange w).window.dialect = w.dialect ∧
    (steppingChange w).window.control = w.control ∧
    (Rests (steppingChange w).window ∨ Prepared (steppingChange w).window) := by
  obtain ⟨hsame, hsheet, hrests | ⟨src, sheet, hread, hproblems, hfollows⟩⟩ := steppingChange_spec w
  · exact ⟨hsame.dialect, hsame.control, .inl hrests⟩
  · refine ⟨hsame.dialect, hsame.control, .inr ⟨src, sheet, ?_, hproblems, hfollows⟩⟩
    rw [readSheet_congr hsame.dialect hsame.control hsheet, hread]

theorem changed_stepping (hw : w.control = .stepping) : changed w = steppingChange w := by
  simp only [changed, hw]

theorem sheetChanged_stepping (hw : w.control = .stepping) : sheetChanged w = steppingChange w := by
  simp only [sheetChanged, hw]

/-- What an event does to a stepping window: it prepares a run, goes on with the one in hand, or
changes the number of rows in the sheet, which nobody is told. -/
theorem react_stepping (hw : w.control = .stepping) (e : Event) :
    (react w e).window.dialect = w.dialect ∧ (react w e).window.control = .stepping ∧
      (Rests (react w e).window ∨ Prepared (react w e).window ∨ GoesOn w (react w e).window ∨
        ∃ n, e = .setRows n ∧ (react w e).window = { w with sheet := w.sheet.setRowCount n }) := by
  have hchange : ∀ (r : Reaction) (v : State), r = steppingChange v → v.dialect = w.dialect →
      v.control = w.control →
      r.window.dialect = w.dialect ∧ r.window.control = .stepping ∧
      (Rests r.window ∨ Prepared r.window ∨ GoesOn w r.window ∨
        ∃ n, e = .setRows n ∧ r.window = { w with sheet := w.sheet.setRowCount n }) := by
    rintro r v rfl hdialect hcontrol
    obtain ⟨hd, hc, hrests | hprepared⟩ := steppingChange_prepares v
    · exact ⟨hd.trans hdialect, hc.trans (hcontrol.trans hw), .inl hrests⟩
    · exact ⟨hd.trans hdialect, hc.trans (hcontrol.trans hw), .inr (.inl hprepared)⟩
  have hkeep : ∀ w', GoesOn w w' → w'.dialect = w.dialect ∧ w'.control = .stepping ∧
      (Rests w' ∨ Prepared w' ∨ GoesOn w w' ∨ ∃ n, e = .setRows n ∧
        w' = { w with sheet := w.sheet.setRowCount n }) :=
    fun w' h => ⟨h.same.dialect, h.same.control.trans hw, .inr (.inr (.inl h))⟩
  cases e with
  | editSource text => exact hchange _ { w with source := text } (changed_stepping hw) rfl rfl
  | setRows n => exact ⟨rfl, hw, .inr (.inr (.inr ⟨n, rfl, rfl⟩))⟩
  | editCell row column text =>
    exact hchange _ { w with sheet := w.sheet.setCell row column text }
      (sheetChanged_stepping hw) rfl rfl
  | clickSheet => exact hchange _ w (sheetChanged_stepping hw) rfl rfl
  | choose i =>
    unfold react
    dsimp only
    split
    · exact hchange _ { w with choice := i } (changed_stepping hw) rfl rfl
    · exact hkeep w (.refl w)
  | click name =>
    unfold react
    dsimp only
    split
    · exact hkeep w (.refl w)
    · next b _ =>
      split
      · cases b with
        | firstPass => simpa [clicked, hw] using hkeep _ (goesOn_runOut w)
        | secondPass => simpa [clicked, hw, calm] using hkeep _ (.refl w)
        | tracePass => exact hkeep _ (goesOn_stepOn w)
        | clearFirst =>
          refine hkeep _ ⟨⟨rfl, rfl, rfl, rfl⟩, rfl, fun h => ⟨h.session, h.code⟩,
            fun table src h => ?_⟩
          exact ⟨h.parsed, h.session, h.code⟩
        | clearSecond =>
          refine hkeep _ ⟨⟨rfl, rfl, rfl, rfl⟩, rfl, fun h => ⟨h.session, h.code⟩,
            fun table src h => ?_⟩
          exact ⟨h.parsed, h.session, h.code⟩
      · exact hkeep w (.refl w)

/-! ## Events one after another -/

theorem dialect_after (hw : w.control = .stepping) (es : List Event) :
    (w.after es).dialect = w.dialect ∧ (w.after es).control = .stepping := by
  induction es using List.reverseRecOn with
  | nil => exact ⟨rfl, hw⟩
  | append_singleton es e ih =>
    rw [State.after_concat]
    obtain ⟨hdialect, hcontrol, -⟩ := react_stepping ih.2 e
    exact ⟨hdialect.trans ih.1, hcontrol⟩

theorem rests_blank (d : Dialect) : Rests (.blank d .stepping) := ⟨nofun, rfl⟩

theorem GoesOn.prepared {w' : State} (h : GoesOn w w') (hw : Prepared w) : Prepared w' := by
  obtain ⟨src, sheet, hread, hproblems, hfollows⟩ := hw
  refine ⟨src, sheet, ?_, hproblems, h.follows _ _ hfollows⟩
  rw [readSheet_congr h.same.dialect h.same.control h.sheet, hread]

theorem prepared_after (d : Dialect) {es : List Event} (hes : ∀ n, .setRows n ∉ es) :
    Rests (State.after (.blank d .stepping) es) ∨
      Prepared (State.after (.blank d .stepping) es) := by
  induction es using List.reverseRecOn with
  | nil => exact .inl (rests_blank d)
  | append_singleton es e ih =>
    have hold := ih fun n hn => hes n (List.mem_append_left _ hn)
    rw [State.after_concat]
    obtain ⟨-, -, hrests | hprepared | hgoes | ⟨n, rfl, -⟩⟩ :=
      react_stepping (dialect_after (w := .blank d .stepping) rfl es).2 e
    · exact .inl hrests
    · exact .inr hprepared
    · exact hold.imp hgoes.rests hgoes.prepared
    · exact absurd (by simp) (hes n)

theorem follows_after (d : Dialect) (es : List Event) :
    Rests (State.after (.blank d .stepping) es) ∨ ∃ before sheet src,
      (State.after (.blank d .stepping) before).readSheet = .ok sheet ∧ sheet.problems = [] ∧
        Follows (State.after (.blank d .stepping) es) sheet.table src := by
  induction es using List.reverseRecOn with
  | nil => exact .inl (rests_blank d)
  | append_singleton es e ih =>
    have hstep := react_stepping (dialect_after (w := .blank d .stepping) rfl es).2 e
    rw [← State.after_concat] at hstep
    obtain ⟨-, -, hrests | ⟨src, sheet, hread, hproblems, hfollows⟩ | hgoes | ⟨n, rfl, heq⟩⟩ :=
      hstep
    · exact .inl hrests
    · exact .inr ⟨es ++ [e], sheet, src, hread, hproblems, hfollows⟩
    · refine ih.imp hgoes.rests ?_
      rintro ⟨before, sheet, src, hread, hproblems, hfollows⟩
      exact ⟨before, sheet, src, hread, hproblems, hgoes.follows _ _ hfollows⟩
    · rw [heq]
      refine ih.imp (fun h => ⟨h.session, h.code⟩) ?_
      rintro ⟨before, sheet, src, hread, hproblems, hfollows⟩
      exact ⟨before, sheet, src, hread, hproblems, hfollows.parsed, hfollows.session, hfollows.code⟩

theorem use_eq (w : State) :
    w.use = .ofIndex (if w.dialect.layout = .absolute then 0 else w.choice) := by
  unfold State.use formHasChoice
  by_cases h : w.dialect.layout = .absolute <;> simp [h, NameUse.ofIndex]

theorem records_of_snapshotCode {layout : Layout} {s : OnePass.Snapshot}
    (h : snapshotCode layout s ≠ []) :
    ∃ records, s.records = some records ∧
      snapshotCode layout s = records.map (·.text layout.traceStyle) := by
  unfold snapshotCode at h ⊢
  cases hrecords : s.records with
  | none => simp [hrecords] at h
  | some records => exact ⟨records, rfl, rfl⟩

/-- The code that a window shows is that of a snapshot of the run. -/
theorem Follows.shown (h : Follows w table src) (hcode : w.code ≠ []) :
    ∃ s records, s ∈ (traceProgram w.dialect.layout table
        (.ofIndex (if w.dialect.layout = .absolute then 0 else w.choice)) src.lines).snapshots ∧
      s.records = some records ∧ w.code = records.map (·.text w.dialect.layout.traceStyle) := by
  obtain ⟨s, hs, heq⟩ := h.code hcode
  rw [heq] at hcode
  obtain ⟨records, hrecords, htexts⟩ := records_of_snapshotCode hcode
  rw [State.runOver, use_eq] at hs
  exact ⟨s, records, hs, hrecords, heq.trans htexts⟩

/-- What a window of one pass shows is never out of date while rows of the sheet are neither added
nor cut off: it is the code of a snapshot of the run over the current source, under the current
sheet and choice. -/
theorem shown_code_current (layout : Layout) {w₀ : State}
    (hw : State.create ⟨layout, .onePass⟩ (.ofDialect ⟨layout, .onePass⟩) = .ok w₀)
    {events : List Event} (hrows : ∀ n, .setRows n ∉ events) (hcode : (w₀.after events).code ≠ []) :
    ∃ src sheet s records, Source.parse ⟨layout, .onePass⟩ (w₀.after events).source = .ok src ∧
      (w₀.after events).readSheet = .ok sheet ∧ sheet.problems = [] ∧
      s ∈ (traceProgram layout sheet.table
        (.ofIndex (if layout = .absolute then 0 else (w₀.after events).choice))
          src.lines).snapshots ∧
      s.records = some records ∧
      (w₀.after events).code = records.map (·.text layout.traceStyle) := by
  obtain rfl : State.blank ⟨layout, .onePass⟩ .stepping = w₀ := Except.ok.inj hw
  have hdialect := (dialect_after (w := .blank ⟨layout, .onePass⟩ .stepping) rfl events).1
  obtain hrests | ⟨src, sheet, hread, hproblems, hfollows⟩ :=
    prepared_after ⟨layout, .onePass⟩ hrows
  · exact absurd hrests.code hcode
  · obtain ⟨s, records, hs, hrecords, heq⟩ := hfollows.shown hcode
    have hparsed := hfollows.parsed
    rw [hdialect] at hs heq hparsed
    exact ⟨src, sheet, s, records, hparsed, hread, hproblems, hs, hrecords, heq⟩

/-- A step, a change of the sheet, and a run to the end. -/
def editedRun : List Event :=
  [.editSource "P: START\n NOP\n END\n", .click "tracePass", .editCell 8 1 "10", .click "firstPass"]

/-- What is shown at the end belongs to the sheet as it was left. -/
theorem editedRun_current :
    ∃ w₀, State.create ⟨.sectioned, .onePass⟩ (.ofDialect ⟨.sectioned, .onePass⟩) = .ok w₀ ∧
    (∀ n, .setRows n ∉ editedRun) ∧
    (w₀.after editedRun).code = ["H P 000000 1", "T 000000 1 28", "E 000000"] ∧
    ∃ src sheet s records, Source.parse ⟨.sectioned, .onePass⟩ (w₀.after editedRun).source =
      .ok src ∧
      (w₀.after editedRun).readSheet = .ok sheet ∧ sheet.problems = [] ∧
      s ∈ (traceProgram .sectioned sheet.table (.ofIndex (w₀.after editedRun).choice)
        src.lines).snapshots ∧
      s.records = some records ∧
      (w₀.after editedRun).code = records.map (·.text Layout.sectioned.traceStyle) :=
  ⟨_, rfl, by simp [editedRun], by decide +kernel,
    shown_code_current .sectioned rfl (by simp [editedRun]) (by decide +kernel)⟩

/-! ## Texts with lines that cannot be read -/

theorem session_steppingChange {sheet : Sheet.Reading}
    (hparse : Source.parse w.dialect w.source = .ok src) (hread : w.readSheet = .ok sheet)
    (hproblems : sheet.problems = []) :
    (steppingChange w).window.session = .running (w.runOver sheet.table src) := by
  have hsame : ∀ w' : State, w'.dialect = w.dialect → w'.control = w.control → w'.sheet = w.sheet →
      w'.readSheet = .ok sheet :=
    fun w' hd hc hs => (readSheet_congr hd hc hs).trans hread
  unfold steppingChange
  simp only [hparse, hsame, hproblems]
  rfl

theorem react_tracePass (hd : w.dialect.strategy = .onePass) :
    react w (.click "tracePass") = stepOn w := by
  have hbutton : Button.tracePass ∈ formButtons w.dialect := by
    rw [formButtons, hd]
    decide
  simp [react, Button.ofName?, hbutton, clicked]

theorem react_firstPass (hw : w.control = .stepping) (hd : w.dialect.strategy = .onePass) :
    react w (.click "firstPass") = runOut w := by
  have hbutton : Button.firstPass ∈ formButtons w.dialect := by
    rw [formButtons, hd]
    decide
  simp [react, Button.ofName?, hbutton, clicked, hw]

theorem code_after_steps (hw : w.control = .stepping) (hd : w.dialect.strategy = .onePass)
    {rest : OnePass.Trace} {pre post : List OnePass.Snapshot} {s : OnePass.Snapshot}
    (hsession : w.session = .running rest) (hcut : rest.snapshots = pre ++ s :: post) :
    (w.after (List.replicate (pre.length + 1) (.click "tracePass"))).source = w.source ∧
      (w.after (List.replicate (pre.length + 1) (.click "tracePass"))).code =
        snapshotCode w.dialect.layout s := by
  induction pre generalizing w rest with
  | nil =>
    obtain ⟨hsame, -, -, hcode⟩ :=
      showSnapshot_spec { w with session := .running ⟨post, rest.fault⟩ } s
    have hstep : stepOn w = showSnapshot { w with session := .running ⟨post, rest.fault⟩ } s := by
      simp only [stepOn, hsession, hcut, List.nil_append]
    change (react w _).window.source = _ ∧ (react w _).window.code = _
    rw [react_tracePass hd, hstep]
    exact ⟨hsame.source, hcode⟩
  | cons q pre ih =>
    obtain ⟨hsame, -, hleft, -⟩ :=
      showSnapshot_spec { w with session := .running ⟨pre ++ s :: post, rest.fault⟩ } q
    have hstep :
        stepOn w =
          showSnapshot { w with session := .running ⟨pre ++ s :: post, rest.fault⟩ } q := by
      simp only [stepOn, hsession, hcut, List.cons_append]
    have hafter : w.after (List.replicate ((q :: pre).length + 1) (.click "tracePass")) =
        (stepOn w).window.after (List.replicate (pre.length + 1) (.click "tracePass")) := by
      rw [← react_tracePass hd]
      rfl
    rw [hafter, hstep]
    have hd' := hsame.dialect
    obtain ⟨hsource, hcode⟩ :=
      ih (w := (showSnapshot { w with session := .running ⟨pre ++ s :: post, rest.fault⟩ }
        q).window) (hsame.control.trans hw) (by rw [hd']; exact hd) hleft rfl
    exact ⟨hsource.trans hsame.source, by rw [hcode, hd']⟩

theorem session_after_choose_edit (hw : w.control = .stepping) {i : Int} {text : String}
    {sheet : Sheet.Reading} (hread : w.readSheet = .ok sheet) (hproblems : sheet.problems = [])
    (hparse : Source.parse w.dialect text = .ok src) :
    (w.after [.choose i, .editSource text]).control = .stepping ∧
      (w.after [.choose i, .editSource text]).dialect = w.dialect ∧
      (w.after [.choose i, .editSource text]).source = text ∧
      (w.after [.choose i, .editSource text]).session =
        .running (traceProgram w.dialect.layout sheet.table
          (.ofIndex (if w.dialect.layout = .absolute then 0 else i)) src.lines) := by
  obtain ⟨v, hv, hdialect, hcontrol, hsheet, hchoice⟩ : ∃ v, (react w (.choose i)).window = v ∧
      v.dialect = w.dialect ∧
      v.control = w.control ∧ v.sheet = w.sheet ∧
      (w.dialect.layout ≠ .absolute → v.choice = i) := by
    refine ⟨_, rfl, ?_⟩
    by_cases hlayout : w.dialect.layout = .absolute
    · have hnone : formHasChoice w.dialect = false := by simp [formHasChoice, hlayout]
      simp [react, hnone, upset, hlayout]
    · have hsome : formHasChoice w.dialect = true := by simp [formHasChoice, hlayout]
      obtain ⟨hsame, hsheet, -⟩ := steppingChange_spec { w with choice := i }
      have hreact : react w (.choose i) = steppingChange { w with choice := i } := by
        simp only [react, hsome, if_true]
        exact changed_stepping hw
      rw [hreact]
      exact ⟨hsame.dialect, hsame.control, hsheet, fun _ => hsame.choice⟩
  have hafter :
      w.after [.choose i, .editSource text] =
        (steppingChange { v with source := text }).window := by
    change (react (react w (.choose i)).window (.editSource text)).window = _
    rw [hv]
    exact congrArg Reaction.window (changed_stepping (hcontrol.trans hw))
  obtain ⟨hsame, -, -⟩ := steppingChange_spec { v with source := text }
  have hread' : State.readSheet { v with source := text } = .ok sheet :=
    (readSheet_congr (w := w) hdialect hcontrol hsheet).trans hread
  have hsession :=
    session_steppingChange (w := { v with source := text }) (by rw [← hparse, ← hdialect]) hread'
      hproblems
  rw [hafter, hsession, State.runOver, use_eq]
  refine ⟨hsame.control.trans (hcontrol.trans hw), hsame.dialect.trans hdialect, hsame.source, ?_⟩
  dsimp only
  rw [hdialect]
  by_cases hlayout : w.dialect.layout = .absolute
  · simp [hlayout]
  · simp [hlayout, hchoice hlayout]

/-- Which code a window of one pass can show beside a text: that of any snapshot of the run over the
lines that can be read, under any choice and any table the window could be made to read.  The lines
that cannot be read make no difference. -/
theorem shown_code_iff (layout : Layout) {w₀ : State}
    (hw : State.create ⟨layout, .onePass⟩ (.ofDialect ⟨layout, .onePass⟩) = .ok w₀) {text : String}
    {code : List String} (hcode : code ≠ []) :
    (∃ events, (w₀.after events).source = text ∧ (w₀.after events).code = code) ↔
      ∃ before sheet src i s records, (w₀.after before).readSheet = .ok sheet ∧
      sheet.problems = [] ∧
        Source.parse ⟨layout, .onePass⟩ text = .ok src ∧
        s ∈ (traceProgram layout sheet.table (.ofIndex (if layout = .absolute then 0 else i))
          src.lines).snapshots ∧
        s.records = some records ∧ code = records.map (·.text layout.traceStyle) := by
  obtain rfl : State.blank ⟨layout, .onePass⟩ .stepping = w₀ := Except.ok.inj hw
  have hframe :
      ∀ es, (State.after (.blank ⟨layout, .onePass⟩ .stepping) es).dialect = ⟨layout, .onePass⟩ ∧
      (State.after (.blank ⟨layout, .onePass⟩ .stepping) es).control = .stepping :=
      fun es => dialect_after rfl es
  constructor
  · rintro ⟨events, rfl, rfl⟩
    have hdialect := (hframe events).1
    obtain hrests | ⟨before, sheet, src, hread, hproblems, hfollows⟩ :=
      follows_after ⟨layout, .onePass⟩ events
    · exact absurd hrests.code hcode
    · obtain ⟨s, records, hs, hrecords, heq⟩ := hfollows.shown hcode
      have hparsed := hfollows.parsed
      rw [hdialect] at hs heq hparsed
      exact ⟨before, sheet, src, _, s, records, hread, hproblems, hparsed, hs, hrecords, heq⟩
  · rintro ⟨before, sheet, src, i, s, records, hread, hproblems, hparse, hs, hrecords, rfl⟩
    obtain ⟨hdialect, hcontrol⟩ := hframe before
    obtain ⟨pre, post, hcut⟩ := List.append_of_mem hs
    rw [← hdialect] at hparse
    obtain ⟨hcontrol', hdialect', hsource, hsession⟩ :=
      session_after_choose_edit (i := i) hcontrol hread hproblems hparse
    rw [hdialect] at hdialect' hsession
    obtain ⟨hkept, hshown⟩ := code_after_steps hcontrol' (by rw [hdialect']) hsession hcut
    refine ⟨before ++
      ([.choose i, .editSource text] ++ List.replicate (pre.length + 1) (.click "tracePass")), ?_,
      ?_⟩
    · rw [State.after_append, State.after_append, hkept, hsource]
    · rw [State.after_append, State.after_append, hshown, hdialect', snapshotCode, hrecords]
      rfl

/-- The sheet of a new window as it is read. -/
def offered : Sheet.Reading where
  table := .ofTriples [("LOAD", 1, 2), ("LOADI", 2, 4), ("STORE", 3, 4), ("ADD", 4, 2),
    ("SUB", 5, 2), ("JMP", 6, 4), ("JZ", 7, 4), ("HALT", 8, 1), ("NOP", 9, 1)]
  codes := [1, 2, 3, 4, 5, 6, 7, 8, 9]
  problems := []

/-- The second line has a number where a mnemonic is wanted. -/
def misprinted : String := "P: START\n 5 NOP\n NOP\n END\n"

/-- What can be read of it, and what cannot. -/
def misprintedSource : Source where
  lines := [⟨some "P", ⟨"START", []⟩⟩, ⟨none, ⟨"NOP", []⟩⟩, ⟨none, ⟨"END", []⟩⟩]
  bad := [⟨2, " 5 NOP".toList, ⟨"command_parser", 0, 1⟩⟩]

/-- A whole object program is shown beside a text with a line that cannot be read. -/
theorem misprinted_shown :
    ∃ w₀, State.create ⟨.absolute, .onePass⟩ (.ofDialect ⟨.absolute, .onePass⟩) = .ok w₀ ∧
    Source.parse ⟨.absolute, .onePass⟩ misprinted = .ok misprintedSource ∧
    misprintedSource.bad ≠ [] ∧
    ∃ events, (w₀.after events).source = misprinted ∧
      (w₀.after events).code = ["H P 000001 1", "T 000001 1 24", "E 000001"] := by
  have hparse : Source.parse ⟨.absolute, .onePass⟩ misprinted = .ok misprintedSource := by
    decide +kernel
  refine ⟨_, rfl, hparse, by decide, (shown_code_iff .absolute rfl (by decide)).2 ?_⟩
  exact ⟨[], offered, misprintedSource, 0,
    ⟨some [.header (some "P") 1 (some 1), .code 1 1 36 "", .finish 1], .flat ∅, []⟩, _,
    by decide +kernel, rfl, hparse, by decide +kernel, rfl, by decide +kernel⟩

end Assembler.Window
