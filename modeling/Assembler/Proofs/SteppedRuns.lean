import Assembler.Proofs.GrowingNames
import Assembler.Proofs.SteppingWindow

/-! # Stepping and running agree

In a stepping window both buttons work on the one run in hand: a step shows its next snapshot, a run
to the end its last one.  What is shown is put over what was shown before, so it does not depend on
it, but for one thing: without symbols the table of names is only emptied and keeps its columns.
Symbols stay once they are there, so the last snapshot is without them only if all are, and the
window after the run is the same however many steps were made (`Runs.after_clicks`). -/

namespace Assembler.Window
open Assembler OnePass
set_option autoImplicit false

variable {d : Dialect} {w : State} {e : Event} {s last : Snapshot} {shots more : List Snapshot}
  {rest : Trace}

/-! ## Showing a snapshot -/

/-- The table of the symbols of one pass. -/
def symbolGrid : Symbols → Grid
  | .flat names => openNames names
  | .sectioned sections => sectionNames sections

theorem namesTable_onePass (hd : d.strategy = .onePass) (symbols : Symbols) :
    namesTable d symbols = .ok (symbolGrid symbols) := by
  cases symbols <;> simp only [namesTable, symbolGrid, hd]

/-- The window that shows a snapshot and has the rest of a run in hand. -/
def State.showing (w : State) (s : Snapshot) (rest : Trace) : State :=
  { w with
    session := .running rest
    code := snapshotCode w.dialect.layout s
    names := if s.symbols.isEmpty then w.names.reset else symbolGrid s.symbols
    firstErrors := w.texts s.found }

theorem showSnapshot_eq (hd : w.dialect.strategy = .onePass) (s : Snapshot) (rest : Trace) :
    showSnapshot { w with session := .running rest } s = calm (w.showing s rest) := by
  cases hempty : s.symbols.isEmpty <;>
    simp only [showSnapshot, hempty, namesTable_onePass hd, State.showing, if_true,
      Bool.false_eq_true, if_false] <;> rfl

theorem State.showing_showing {s' : Snapshot}
    (h : s'.symbols.isEmpty = true → s.symbols.isEmpty = true) (rest rest' : Trace) :
    (w.showing s rest).showing s' rest' = w.showing s' rest' := by
  have hreset : w.names.reset.reset = w.names.reset := by
    simp [Grid.reset, Grid.clear, Grid.setRowCount]
  by_cases hempty : s'.symbols.isEmpty = true
  · simp only [showing, hempty, h hempty, if_true, hreset]
    rfl
  · simp only [showing, hempty]
    rfl

/-! ## A run in hand -/

def Event.FollowsRun (e : Event) : Prop := e = .click "tracePass" ∨ e = .click "firstPass"

/-- A window with a run in hand that does not break off; `shots` are the snapshots to come. -/
structure Runs (w : State) (shots : List Snapshot) (last : Snapshot) : Prop where
  control : w.control = .stepping
  strategy : w.dialect.strategy = .onePass
  session : w.session = .running ⟨shots, none⟩
  last : shots.getLast? = some last
  symbols : shots.Pairwise fun v w => w.symbols.isEmpty = true → v.symbols.isEmpty = true

/-- A window with a run in hand that has come to its end. -/
structure RunOver (w : State) : Prop where
  control : w.control = .stepping
  strategy : w.dialect.strategy = .onePass
  session : w.session = .running .nothing

theorem RunOver.react (h : RunOver w) (he : e.FollowsRun) : react w e = calm w := by
  obtain rfl | rfl := he
  · rw [react_tracePass h.strategy]
    simp only [stepOn, h.session, Trace.nothing]
  · rw [react_firstPass h.control h.strategy]
    simp only [runOut, h.session, Trace.nothing, List.getLast?_nil]
    rw [← Trace.nothing, ← h.session]

/-- Nothing happens any more. -/
theorem RunOver.after (h : RunOver w) {clicks : List Event} (hclicks : ∀ e ∈ clicks, e.FollowsRun) :
    w.after clicks = w ∧ ∀ r ∈ reactions w clicks, r.fault = none := by
  induction clicks with
  | nil => exact ⟨rfl, by simp [reactions]⟩
  | cons e clicks ih =>
    have hreact := h.react (hclicks e List.mem_cons_self)
    obtain ⟨hafter, hfaults⟩ := ih fun e he => hclicks e (List.mem_cons_of_mem _ he)
    simp only [State.after, List.foldl_cons, reactions, hreact, List.forall_mem_cons] at hafter ⊢
    exact ⟨hafter, rfl, hfaults⟩

/-- A run to the end shows the last snapshot. -/
theorem Runs.firstPass (h : Runs w shots last) :
    react w (.click "firstPass") = calm (w.showing last .nothing) ∧
      RunOver (w.showing last .nothing) := by
  refine ⟨?_, h.control, h.strategy, rfl⟩
  rw [react_firstPass h.control h.strategy]
  simp only [runOut, h.session, h.last]
  exact showSnapshot_eq h.strategy last .nothing

/-- A step shows the next snapshot; either it is the last one, or the run goes on to the same
end. -/
theorem Runs.tracePass (h : Runs w shots last) : ∃ s more, shots = s :: more ∧
    react w (.click "tracePass") = calm (w.showing s ⟨more, none⟩) ∧
    (w.showing s ⟨more, none⟩ = w.showing last .nothing ∨
      Runs (w.showing s ⟨more, none⟩) more last ∧ (w.showing s ⟨more, none⟩).showing last .nothing =
        w.showing last .nothing) := by
  obtain ⟨s, more, rfl⟩ : ∃ s more, shots = s :: more := by
    apply List.exists_cons_of_ne_nil
    rintro rfl
    cases h.last
  refine ⟨s, more, rfl, ?_, ?_⟩
  · rw [react_tracePass h.strategy]
    simp only [stepOn, h.session]
    exact showSnapshot_eq h.strategy s ⟨more, none⟩
  · obtain ⟨hfirst, hmore⟩ := List.pairwise_cons.1 h.symbols
    cases hlast : more.getLast? with
    | none =>
      obtain rfl := List.getLast?_eq_none_iff.1 hlast
      obtain rfl := Option.some.inj h.last
      exact .inl rfl
    | some v =>
      have hv := h.last
      rw [List.getLast?_cons, hlast, Option.getD_some, Option.some.injEq] at hv
      subst hv
      refine .inr ⟨⟨h.control, h.strategy, rfl, hlast, hmore⟩, ?_⟩
      exact State.showing_showing (hfirst v (List.mem_of_getLast? hlast)) _ _

/-- However a run is followed, no handler ends in a fault, and the window after the run is that of a
run to the end at once. -/
theorem Runs.after_clicks (h : Runs w shots last) {clicks : List Event}
    (hclicks : ∀ e ∈ clicks, e.FollowsRun) :
    (∀ r ∈ reactions w clicks, r.fault = none) ∧
      (.click "firstPass" ∈ clicks ∨ shots.length ≤ clicks.length →
        w.after clicks = w.showing last .nothing) := by
  induction clicks generalizing w shots with
  | nil =>
    refine ⟨by simp [reactions], fun hover => ?_⟩
    obtain ⟨s, more, rfl, -⟩ := h.tracePass
    simp at hover
  | cons e clicks ih =>
    have hrest : ∀ e ∈ clicks, e.FollowsRun := fun e he => hclicks e (List.mem_cons_of_mem _ he)
    simp only [State.after, List.foldl_cons, reactions, List.forall_mem_cons]
    obtain rfl | rfl := hclicks e List.mem_cons_self
    · obtain ⟨s, more, rfl, hreact, hend | ⟨hruns, hend⟩⟩ := h.tracePass
      · obtain ⟨hafter, hfaults⟩ := h.firstPass.2.after hrest
        rw [hreact, hend]
        exact ⟨⟨rfl, hfaults⟩, fun _ => hafter⟩
      · obtain ⟨hfaults, hafter⟩ := ih hruns hrest
        rw [hreact]
        refine ⟨⟨rfl, hfaults⟩, fun hover => (hafter ?_).trans hend⟩
        simpa using hover
    · obtain ⟨hreact, hover⟩ := h.firstPass
      obtain ⟨hafter, hfaults⟩ := hover.after hrest
      rw [hreact]
      exact ⟨⟨rfl, hfaults⟩, fun _ => hafter⟩

theorem after_of_idle (hw : w.control = .stepping) (hd : w.dialect.strategy = .onePass)
    (hsession : w.session = .idle) {clicks : List Event} (hclicks : ∀ e ∈ clicks, e.FollowsRun) :
    w.after clicks = w := by
  induction clicks with
  | nil => rfl
  | cons e clicks ih =>
    have hreact : (react w e).window = w := by
      obtain rfl | rfl := hclicks e List.mem_cons_self
      · simp only [react_tracePass hd, stepOn, hsession, window_stepFault]
      · simp only [react_firstPass hw hd, runOut, hsession, calm]
    have hafter := ih fun e he => hclicks e (List.mem_cons_of_mem _ he)
    simpa only [State.after, List.foldl_cons, hreact] using hafter

/-! ## After a change -/

/-- Whether an event makes a stepping window prepare a run. -/
def Event.prepares (d : Dialect) : Event → Bool
  | .editSource _ | .editCell _ _ _ | .clickSheet => true
  | .choose _ => formHasChoice d
  | .setRows _ | .click _ => false

/-- A window of one pass in which something has just been changed. -/
def JustChanged (layout : Layout) (w : State) : Prop :=
  ∃ w₀ before e, State.create ⟨layout, .onePass⟩ (.ofDialect ⟨layout, .onePass⟩) = .ok w₀ ∧
    e.prepares ⟨layout, .onePass⟩ = true ∧ w = w₀.after (before ++ [e])

theorem react_of_prepares (hw : w.control = .stepping) (he : e.prepares w.dialect = true) :
    ∃ v, react w e = steppingChange v ∧ v.dialect = w.dialect ∧ v.control = .stepping := by
  cases e with
  | editSource text => exact ⟨{ w with source := text }, changed_stepping hw, rfl, hw⟩
  | editCell row column text =>
    exact ⟨{ w with sheet := w.sheet.setCell row column text }, sheetChanged_stepping hw, rfl, hw⟩
  | clickSheet => exact ⟨w, sheetChanged_stepping hw, rfl, hw⟩
  | choose i =>
    have hchoice : formHasChoice w.dialect = true := he
    refine ⟨{ w with choice := i }, ?_, rfl, hw⟩
    simp only [react, hchoice, if_true]
    exact changed_stepping hw
  | setRows n => cases he
  | click name => cases he

/-- A change leaves the run over the text in hand, or none if the text cannot be taken apart. -/
theorem JustChanged.session {layout : Layout} (h : JustChanged layout w) {sheet : Sheet.Reading}
    (hread : w.readSheet = .ok sheet) (hproblems : sheet.problems = []) :
    w.dialect = ⟨layout, .onePass⟩ ∧ w.control = .stepping ∧
      ((∃ x, Source.parse w.dialect w.source = .error x ∧ w.session = .idle) ∨
        ∃ src, Source.parse w.dialect w.source = .ok src ∧
        w.session = .running (w.runOver sheet.table src)) := by
  obtain ⟨w₀, before, e, hw₀, he, rfl⟩ := h
  obtain rfl : State.blank ⟨layout, .onePass⟩ .stepping = w₀ := Except.ok.inj hw₀
  obtain ⟨hdialect, hcontrol⟩ := dialect_after (w := .blank ⟨layout, .onePass⟩ .stepping) rfl before
  rw [State.after_concat] at hread ⊢
  obtain ⟨v, hv, hvdialect, hvcontrol⟩ := react_of_prepares hcontrol (by rw [hdialect]; exact he)
  obtain ⟨hsame, hsheet, -⟩ := steppingChange_spec v
  rw [hv] at hread ⊢
  rw [readSheet_congr hsame.dialect hsame.control hsheet] at hread
  refine ⟨hsame.dialect.trans (hvdialect.trans hdialect), hsame.control.trans hvcontrol, ?_⟩
  rw [hsame.dialect, hsame.source]
  cases hparse : Source.parse v.dialect v.source with
  | error x =>
    refine .inl ⟨x, rfl, ?_⟩
    simp only [steppingChange, hparse]
    rfl
  | ok src =>
    refine .inr ⟨src, rfl, ?_⟩
    rw [session_steppingChange hparse hread hproblems, hsame.runOver_eq]

theorem exists_getLast?_of_fault {layout : Layout} {table : OpTable} {use : NameUse}
    {program : List Line} (h : (traceProgram layout table use program).fault = none) :
    ∃ last, (traceProgram layout table use program).snapshots.getLast? = some last := by
  cases layout with
  | absolute => exact Pass.exists_getLast?_of_fault _ _ _ _ h
  | relocatable => exact Pass.exists_getLast?_of_fault _ _ _ _ h
  | sectioned => exact Pass.exists_getLast?_of_fault _ _ _ _ h

theorem runs_of_session {layout : Layout} {table : OpTable} {src : Source}
    (hd : w.dialect = ⟨layout, .onePass⟩) (hw : w.control = .stepping)
    (hsession : w.session = .running (w.runOver table src))
    (hfault : (w.runOver table src).fault = none) :
    ∃ last, (w.runOver table src).snapshots.getLast? = some last ∧
      Runs w (w.runOver table src).snapshots last := by
  obtain ⟨last, hlast⟩ := exists_getLast?_of_fault hfault
  have hstrategy : w.dialect.strategy = .onePass := by rw [hd]
  have hrest : w.session = .running ⟨(w.runOver table src).snapshots, none⟩ := by
    rw [hsession, ← hfault]
  exact ⟨last, hlast, hw, hstrategy, hrest, hlast, symbols_pairwise _ _ _ _⟩

/-- Right after a change of a window of one pass whose sheet is in order and whose run does not
break off, it makes no difference how the run is followed: any steps and runs to the end with at
least one of the latter leave the whole window as one run to the end does, and so do steps that are
enough for all snapshots.  What is shown then is the last snapshot of the run, and no handler ends
in a fault on the way. -/
theorem stepping_agrees_with_running (layout : Layout) {w : State} (hw : JustChanged layout w)
    {sheet : Sheet.Reading} (hread : w.readSheet = .ok sheet) (hproblems : sheet.problems = [])
    (hfault : ∀ src, Source.parse ⟨layout, .onePass⟩ w.source = .ok src →
      (traceProgram layout sheet.table (.ofIndex (if layout = .absolute then 0 else w.choice))
        src.lines).fault = none)
    {clicks : List Event}
    (hclicks : ∀ e ∈ clicks, e = .click "tracePass" ∨ e = .click "firstPass") :
    (.click "firstPass" ∈ clicks → w.after clicks = w.after [.click "firstPass"]) ∧
    ∀ src, Source.parse ⟨layout, .onePass⟩ w.source = .ok src → ∃ snapshots last,
      (traceProgram layout sheet.table (.ofIndex (if layout = .absolute then 0 else w.choice))
        src.lines).snapshots = snapshots ∧
      snapshots.getLast? = some last ∧
      (w.after [.click "firstPass"]).code = snapshotCode layout last ∧
      (w.after [.click "firstPass"]).names =
        (if last.symbols.isEmpty then w.names.reset else symbolGrid last.symbols) ∧
      (w.after [.click "firstPass"]).firstErrors = last.found.map (·.text ⟨layout, .onePass⟩) ∧
      (∀ r ∈ reactions w clicks, r.fault = none) ∧
      (snapshots.length ≤ clicks.length → w.after clicks = w.after [.click "firstPass"]) := by
  have hone : ∀ e ∈ [Event.click "firstPass"], e.FollowsRun := by simp [Event.FollowsRun]
  obtain ⟨hd, hcontrol, ⟨x, hparse, hsession⟩ | ⟨src, hparse, hsession⟩⟩ :=
    hw.session hread hproblems
  · have hidle : ∀ clicks : List Event, (∀ e ∈ clicks, e.FollowsRun) → w.after clicks = w :=
      fun _ =>
      after_of_idle hcontrol (by rw [hd]) hsession
    refine ⟨fun _ => (hidle clicks hclicks).trans (hidle _ hone).symm, fun src hsrc => ?_⟩
    rw [hd, hsrc] at hparse
    cases hparse
  · have hrun : w.runOver sheet.table src =
        traceProgram layout sheet.table (.ofIndex (if layout = .absolute then 0 else w.choice))
          src.lines := by
      rw [State.runOver, use_eq, hd]
    have hparse' : Source.parse ⟨layout, .onePass⟩ w.source = .ok src := hd ▸ hparse
    obtain ⟨last, hlast, hruns⟩ := runs_of_session hd hcontrol hsession (hrun ▸ hfault src hparse')
    obtain ⟨hfaults, hafter⟩ := hruns.after_clicks hclicks
    have hend := (hruns.after_clicks hone).2 (.inl List.mem_cons_self)
    rw [hend]
    refine ⟨fun hfirst => hafter (.inl hfirst), fun src' hsrc' => ?_⟩
    obtain rfl := Except.ok.inj (hparse'.symm.trans hsrc')
    rw [← hrun]
    refine ⟨_, last, rfl, hlast, ?_, rfl, ?_, hfaults, fun hlength => hafter (.inr hlength)⟩
    · simp only [State.showing, hd]
    · simp only [State.showing, State.texts, hd]

/-- A program is stepped through, then the source is replaced by one with a jump forward. -/
def replacedSource : List Event :=
  [.editSource "P: START\n END\n", .click "tracePass",
    .editSource "P: START\n JMP X\nX: NOP\n END\n"]

/-- What can be read of the new source. -/
def forwardJump : Source where
  lines := [⟨some "P", ⟨"START", []⟩⟩, ⟨none, ⟨"JMP", [.direct "X"]⟩⟩, ⟨some "X", ⟨"NOP", []⟩⟩,
    ⟨none, ⟨"END", []⟩⟩]
  bad := []

/-- Two steps, a run to the end and one more step leave the window as a run to the end does. -/
theorem forwardJump_stepped : ∃ w, JustChanged .relocatable w ∧ w.readSheet = .ok offered ∧
    offered.problems = [] ∧
    Source.parse ⟨.relocatable, .onePass⟩ w.source = .ok forwardJump ∧
    (traceProgram .relocatable offered.table (.ofIndex w.choice) forwardJump.lines).fault = none ∧
    (w.after [.click "tracePass"]).code = ["H P 000000", "T 000000 4 19"] ∧
    w.after [.click "tracePass", .click "tracePass", .click "firstPass", .click "tracePass"] =
      w.after [.click "firstPass"] ∧
    (w.after [.click "firstPass"]).code = ["H P 000000 5", "T 000000 4 19000004", "T 000004 1 24",
      "M 000000", "E 000000"] := by
  have hchanged :
      JustChanged .relocatable
        (State.after (.blank ⟨.relocatable, .onePass⟩ .stepping) replacedSource) :=
    ⟨_, [.editSource "P: START\n END\n", .click "tracePass"], _, rfl, rfl, rfl⟩
  have hread :
      (State.after (.blank ⟨.relocatable, .onePass⟩ .stepping) replacedSource).readSheet =
        .ok offered := by decide +kernel
  have hparse : Source.parse ⟨.relocatable, .onePass⟩
      (State.after (.blank ⟨.relocatable, .onePass⟩ .stepping) replacedSource).source =
        .ok forwardJump := by decide +kernel
  have hfault : (traceProgram .relocatable offered.table
      (.ofIndex (State.after (.blank ⟨.relocatable, .onePass⟩ .stepping) replacedSource).choice)
        forwardJump.lines).fault = none := by
    decide +kernel
  refine ⟨_, hchanged, hread, rfl, hparse, hfault, by decide +kernel, ?_, by decide +kernel⟩
  refine (stepping_agrees_with_running .relocatable hchanged hread rfl (fun src hsrc => ?_)
    (by simp)).1 (by simp)
  obtain rfl := Except.ok.inj (hparse.symm.trans hsrc)
  exact hfault

end Assembler.Window
