import Assembler.Assembly
import Assembler.Proofs.AbsolutePass
import Assembler.Proofs.GrowingRecords
import Assembler.Proofs.RelocatablePass
import Assembler.Proofs.SectionedPass

/-! # What one pass has shown stays

Each of the three passes leaves the records of a state in front of what it adds to them, as long as
nothing is found wrong. The only records that a line changes are those that wait for its label and
the header of a section that it closes; both are still open then.  So of any two snapshots the
earlier one shows the beginnings of the records of the later one. -/

namespace Assembler
set_option autoImplicit false

namespace OnePass

/-! ## Absolute programs -/

namespace Absolute

variable {table : OpTable} {use : NameUse} {s s' : State} {n : Nat} {l : Line}

def HeadersOpen (s : State) : Prop := ∀ r ∈ s.records, ∀ label a k, r ≠ .header label a (some k)

theorem grown_appendAddress (a : Int) (r : ObjectRecord) : r.Grown (appendAddress a r) := by
  cases r with
  | code at_ size byte field => exact .field at_ size byte field _
  | _ => exact .same _

theorem grown_setLength {r : ObjectRecord} (h : ∀ label a k, r ≠ .header label a (some k))
    (k : Int) :
    r.Grown (setLength k r) := by
  cases r with
  | header label a length =>
    cases length with
    | none => exact .length label a k
    | some m => exact absurd rfl (h label a m)
  | _ => exact .same _

theorem extends_noteLabel (hopen : HeadersOpen s) (h : s.noteLabel n l = .ok s') :
    Extends ObjectRecord.Grown s.records s'.records ∧ HeadersOpen s' := by
  unfold State.noteLabel at h
  split at h
  · cases h
    exact ⟨.refl .same _, hopen⟩
  · split at h
    · cases h
      exact ⟨.refl .same _, hopen⟩
    · unfold State.fillWaiting at h
      split at h
      · cases h
        exact ⟨.refl .same _, hopen⟩
      · obtain ⟨rs, hrs, rfl⟩ := (map_eq_ok_iff _ _ _).1 h
        refine extends_changeAll .same ObjectRecord.Grown.trans (fun r r' hr hr' => ?_) hopen hrs
        cases hr'
        refine ⟨grown_appendAddress _ r, fun label a k => ?_⟩
        cases r with
        | code at_ size byte field =>
          intro heq
          cases heq
        | _ => exact hr label a k

theorem records_of_bodyLine {stmt : Statement} (hend : stmt ≠ .finish)
    (h : s.bodyLine use stmt n l = .ok s') (hf : s'.found = []) :
    ∃ r, s'.records = s.records ++ [r] ∧ ∀ label a k, r ≠ .header label a (some k) := by
  unfold State.bodyLine at h
  split at h
  · exact absurd rfl hend
  · obtain ⟨s₁, hs, rfl⟩ := (map_eq_ok_iff _ _ _).1 h
    obtain ⟨-, -, rfl⟩ := (State.storageLine_clean_iff _ n l).1 ⟨hs, hf⟩
    refine ⟨_, rfl, fun label a k => ?_⟩
    unfold Assembler.storageRecord
    split <;> nofun
  · obtain ⟨s₁, hs, rfl⟩ := (map_eq_ok_iff _ _ _).1 h
    obtain ⟨-, -, f, -, rfl⟩ := (State.commandLine_clean_iff _ n l).1 ⟨hs, hf⟩
    exact ⟨_, rfl, nofun⟩
  · cases h
    simp [State.report] at hf

theorem HeadersOpen.of_append {r : ObjectRecord} (h : HeadersOpen s)
    (hr : ∀ label a k, r ≠ .header label a (some k)) (hrecords : s'.records = s.records ++ [r]) :
    HeadersOpen s' := by
  intro q hq
  rw [hrecords] at hq
  rcases List.mem_append.1 hq with hq | hq
  · exact h q hq
  · exact List.mem_singleton.1 hq ▸ hr

theorem extends_line (hopen : HeadersOpen s) (h : s.line table use n l = .ok s')
    (hf : s'.found = []) :
    Extends ObjectRecord.Grown s.records s'.records ∧ (s'.ended = false → HeadersOpen s') := by
  by_cases hl : l.mnemonic = "START"
  · rw [State.line_start hl] at h
    obtain rfl := Except.ok.inj h
    exact ⟨(Extends.refl .same _).append _, fun _ => hopen.of_append (by simp) rfl⟩
  · have hstarted := (State.stepping table use).started_of_ne_start hl h hf
    rw [State.line_eq hl, State.expectStarted, if_pos hstarted] at h
    cases hn : s.noteLabel n l with
    | error x => simp [hn] at h
    | ok s₁ =>
      simp only [hn] at h
      obtain ⟨hlabel, hopen₁⟩ := extends_noteLabel hopen hn
      by_cases hend : Statement.ofMnemonic .absolute table l.mnemonic = .finish
      · rw [hend] at h
        cases h
        constructor
        · refine hlabel.trans ObjectRecord.Grown.trans ?_
          exact (extends_map fun r hr => grown_setLength (hopen₁ r hr) _).append _
        · intro hended
          cases hended
      · obtain ⟨r, hrecords, hr⟩ := records_of_bodyLine hend h hf
        refine ⟨?_, fun _ => hopen₁.of_append hr hrecords⟩
        rw [hrecords]
        exact hlabel.append _

theorem growing (table : OpTable) (use : NameUse) :
    (pass table use).Growing (fun s => s.found = []) State.records ObjectRecord.Grown
      HeadersOpen where
  refl := .same
  trans := ObjectRecord.Grown.trans
  clean_of_step := (State.stepping table use).clean_of_step
  step hopen _ h hf := extends_line hopen h hf
  close hf := ⟨(List.append_eq_nil_iff.1 hf).1, rfl⟩

end Absolute

/-! ## Relocatable programs -/

namespace Relocatable

variable {table : OpTable} {use : NameUse} {s s' : State} {n : Nat} {l : Line}

/-- Before the end directive: the drafts are as full as they can be, and the first one is the open
header. -/
structure Underway (s : State) : Prop where
  ripe : ∀ r ∈ s.drafts, r.Ripe
  header : s.started = true → ∃ label a, s.drafts[0]? = some (.header label a none)
  empty : s.started = false → s.drafts = []

theorem filled_of_fill {r r' : Draft} (hr : r.Ripe) (h : s.fill r = .ok r') :
    r.Filled r' ∧ r'.Ripe := by
  unfold State.fill at h
  split at h
  · cases h
  · next hfill =>
    split at h <;> cases h
    exact Draft.filled_of_fill hr hfill

theorem ripe_of_fill {a size b : Int} {ops : List Operand} {r : Draft}
    (h : s.fill (.code a size (some b) ops) = .ok r) :
    r.Ripe := by
  unfold State.fill at h
  split at h
  · cases h
  · next hfill =>
    split at h <;> cases h
    exact Draft.ripe_of_fill hfill

theorem extends_noteLabel (hripe : ∀ r ∈ s.drafts, r.Ripe) (h : s.noteLabel n l = .ok s') :
    Extends Draft.Filled s.drafts s'.drafts ∧ ∀ r ∈ s'.drafts, r.Ripe := by
  unfold State.noteLabel at h
  split at h
  · cases h
    exact ⟨.refl .same _, hripe⟩
  · split at h
    · cases h
      exact ⟨.refl .same _, hripe⟩
    · unfold State.fillWaiting at h
      split at h
      · cases h
        exact ⟨.refl .same _, hripe⟩
      · obtain ⟨rs, hrs, rfl⟩ := (map_eq_ok_iff _ _ _).1 h
        exact extends_changeAll Draft.Filled.same Draft.Filled.trans
          (fun _ _ => filled_of_fill) hripe hrs

theorem drafts_of_bodyLine {stmt : Statement} (hend : stmt ≠ .finish)
    (h : s.bodyLine use stmt n l = .ok s') (hf : s'.found = []) :
    ∃ r, s'.drafts = s.drafts ++ [r] ∧ r.Ripe := by
  unfold State.bodyLine at h
  split at h
  · exact absurd rfl hend
  · obtain ⟨s₁, hs, rfl⟩ := (map_eq_ok_iff _ _ _).1 h
    obtain ⟨-, -, rfl⟩ := (State.storageLine_clean_iff _ n l).1 ⟨hs, hf⟩
    exact ⟨_, rfl, Draft.ripe_storageDraft _ _ _⟩
  · obtain ⟨s₁, hs, rfl⟩ := (map_eq_ok_iff _ _ _).1 h
    obtain ⟨-, -, -, r, hr, rfl⟩ := (State.commandLine_clean_iff _ n l).1 ⟨hs, hf⟩
    obtain ⟨modified, hm⟩ := State.noteModified_eq (s.add r) l.operands
    exact ⟨r, by rw [hm]; rfl, ripe_of_fill hr⟩
  · cases h
    simp [State.report] at hf

theorem drafts_endLine {first : Draft} (hfirst : s.drafts[0]? = some first)
    (h : s.endLine n l = .ok s') :
    s'.drafts = s.drafts.set 0 (first.setLength (s.counter - s.origin)) ++
      (s.modified.map (.modification · none) ++ [.finish (s.entryPoint l)]) ∧ s'.ended = true := by
  unfold State.endLine at h
  cases hd : s.drafts with
  | nil => simp [hd] at hfirst
  | cons r rs =>
    rw [hd, List.getElem?_cons_zero, Option.some.injEq] at hfirst
    simp only [hd, Except.ok.injEq] at h
    subst h hfirst
    simp

theorem extends_line (hs : Underway s) (h : s.line table use n l = .ok s') (hf : s'.found = []) :
    Extends Draft.Grown s.drafts s'.drafts ∧ (s'.ended = false → Underway s') := by
  by_cases hl : l.mnemonic = "START"
  · have hstarted : s.started = false := ((State.stepping table use).start_iff h hf).1 hl
    rw [State.line_start hl] at h
    obtain rfl := Except.ok.inj h
    have hdrafts : ∃ a, (s.startLine n l).drafts = [.header l.label a none] := by
      rw [State.startLine, hs.empty hstarted]
      exact ⟨_, rfl⟩
    obtain ⟨a, hdrafts⟩ := hdrafts
    refine ⟨⟨by simp [hs.empty hstarted], fun hx => by simp [hs.empty hstarted] at hx⟩, fun _ => ?_⟩
    exact ⟨fun r hr => by rw [hdrafts, List.mem_singleton] at hr; subst hr; trivial,
      fun _ => ⟨_, _, by rw [hdrafts]; rfl⟩, fun hno => by cases hno⟩
  · have hstarted := (State.stepping table use).started_of_ne_start hl h hf
    rw [State.line_eq hl, State.expectStarted, if_pos hstarted] at h
    cases hn : s.noteLabel n l with
    | error x => simp [hn] at h
    | ok s₁ =>
      simp only [hn] at h
      obtain ⟨hlabel, hripe⟩ := extends_noteLabel hs.ripe hn
      obtain ⟨label, a, hheader⟩ := hs.header hstarted
      have hheader₁ := hlabel.header hheader
      have hgrown : Extends Draft.Grown s.drafts s₁.drafts := hlabel.mono .filled
      by_cases hend : Statement.ofMnemonic .relocatable table l.mnemonic = .finish
      · rw [hend] at h
        obtain ⟨hdrafts, hended⟩ := drafts_endLine hheader₁ h
        have hlength :=
          extends_set Draft.Grown.refl hheader₁ (.length label a (s₁.counter - s₁.origin))
        refine ⟨?_, fun he => absurd (hended.symm.trans he) (by decide)⟩
        rw [hdrafts]
        apply Extends.append
        exact hgrown.trans Draft.Grown.trans hlength
      · obtain ⟨r, hdrafts, hr⟩ := drafts_of_bodyLine hend h hf
        have hstarted' := (State.frame_of_bodyLine h hf).2.1
        obtain ⟨qs, names, waiting, drafts, -, rfl⟩ := State.noteLabel_eq hn
        refine ⟨by rw [hdrafts]; exact hgrown.append _,
          fun _ => ⟨fun q hq => ?_, fun _ => ⟨label, a, ?_⟩, fun hno => ?_⟩⟩
        · rw [hdrafts] at hq
          rcases List.mem_append.1 hq with hq | hq
          · exact hripe q hq
          · exact List.mem_singleton.1 hq ▸ hr
        · rw [hdrafts, List.getElem?_append_left (List.getElem?_eq_some_iff.1 hheader₁).1]
          exact hheader₁
        · rw [hstarted'] at hno
          exact absurd (hstarted.symm.trans hno) (by decide)

theorem growing (table : OpTable) (use : NameUse) :
    (pass table use).Growing (fun s => s.found = []) State.drafts Draft.Grown Underway where
  refl := Draft.Grown.refl
  trans := Draft.Grown.trans
  clean_of_step := (State.stepping table use).clean_of_step
  step hs _ h hf := extends_line hs h hf
  close hf := ⟨(List.append_eq_nil_iff.1 hf).1, rfl⟩

end Relocatable

/-! ## Sectioned programs -/

namespace Sectioned

variable {table : OpTable} {use : NameUse} {s s' : State} {l : Line}

/-- Before the end directive: the drafts are as full as they can be, and the header of the section
is open. -/
structure Underway (s : State) : Prop where
  ripe : ∀ r ∈ s.drafts, r.Ripe
  header : s.started = true → ∃ label a, s.drafts[s.headerPlace]? = some (.header label a none)

theorem extends_noteLabel (hripe : ∀ r ∈ s.drafts, r.Ripe) (h : s.noteLabel l = .ok s')
    (hf : s'.found = []) :
    Extends Draft.Filled s.drafts s'.drafts ∧ (∀ r ∈ s'.drafts, r.Ripe) ∧
      s'.headerPlace = s.headerPlace := by
  unfold State.noteLabel at h
  split at h
  · cases h
    exact ⟨.refl .same _, hripe, rfl⟩
  · split at h
    · cases h
    · split at h
      · cases h
        exact ⟨.refl .same _, hripe, rfl⟩
      · obtain ⟨-, ds, hds, waiting, -, rfl⟩ := State.fillWaiting_clean h hf
        obtain ⟨hext, hripe'⟩ :=
          extends_changeAll Draft.Filled.same Draft.Filled.trans (fun _ _ => Draft.filled_of_fill)
            hripe hds
        exact ⟨hext, hripe', rfl⟩

theorem ripe_modificationDrafts {ms : List (Int × String)} {ds : List Draft}
    (h : s.modificationDrafts ms = .ok ds) :
    ∀ r ∈ ds, r.Ripe := by
  induction ms generalizing ds with
  | nil => cases h; simp
  | cons m ms ih =>
    rw [State.modificationDrafts] at h
    split at h
    · cases h
    · split at h
      · cases h
      · obtain ⟨ds, hds, rfl⟩ := (map_eq_ok_iff _ _ _).1 h
        exact List.forall_mem_cons.2 ⟨trivial, ih hds⟩

theorem drafts_of_bodyLine {stmt : Statement} (hend : stmt ≠ .finish)
    (h : s.bodyLine use stmt l = .ok s') (hf : s'.found = []) :
    ∃ r, s'.drafts = s.drafts ++ [r] ∧ r.Ripe ∧ s'.headerPlace = s.headerPlace := by
  unfold State.bodyLine at h
  split at h
  · exact absurd rfl hend
  · obtain ⟨-, -, rfl⟩ := State.storageLine_clean h hf
    exact ⟨_, rfl, Draft.ripe_storageDraft _ _ _, rfl⟩
  · obtain ⟨-, -, ns, x, -, -, -, rfl⟩ := State.exportLine_clean h hf
    exact ⟨_, rfl, by simp [Draft.Ripe, IsSettled, Operand.value?, noNames], rfl⟩
  · obtain ⟨-, -, ns, x, -, -, -, rfl⟩ := State.importLine_clean h hf
    exact ⟨_, rfl, trivial, rfl⟩
  · obtain ⟨-, -, -, r, hr, hw⟩ := State.commandLine_clean h hf
    obtain ⟨sections, waiting, rfl⟩ := State.waitForAll_eq hw
    exact ⟨r, rfl, Draft.ripe_of_fill hr, rfl⟩
  · cases h
    simp [State.report] at hf

theorem Underway.sectionLine (hs : Underway s) (hstarted : s.started = true)
    (h : s.sectionLine l = .ok s') (hf : s'.found = []) : Extends Draft.Grown s.drafts s'.drafts ∧
    Underway s' := by
  obtain ⟨-, -, -, mods, ds, hmods, hds, rfl⟩ := State.sectionLine_clean_iff.1 ⟨h, hf⟩
  obtain ⟨label, a, hheader⟩ := hs.header hstarted
  have hheader' : (s.drafts ++ mods)[s.headerPlace]? = some (.header label a none) := by
    rw [List.getElem?_append_left (List.getElem?_eq_some_iff.1 hheader).1]
    exact hheader
  have hripe : ∀ r ∈ s.drafts ++ mods, r.Ripe :=
    fun r hr => (List.mem_append.1 hr).elim (hs.ripe r) (ripe_modificationDrafts hmods r)
  obtain ⟨hgrown, hripe'⟩ := extends_setLength hheader' _ hds hripe
  refine ⟨?_, fun r hr => ?_, fun _ => ⟨l.label, 0, by simp⟩⟩
  · have hmodified := (Extends.refl Draft.Grown.refl s.drafts).append mods
    apply Extends.append
    exact hmodified.trans Draft.Grown.trans hgrown
  · rcases List.mem_append.1 hr with hr | hr
    · exact hripe' r hr
    · rcases List.mem_pair.1 hr with rfl | rfl <;> trivial

theorem Underway.endLine (hs : Underway s) (hstarted : s.started = true) (h : s.endLine l = .ok s')
    (hf : s'.found = []) : Extends Draft.Grown s.drafts s'.drafts ∧ s'.ended = true := by
  obtain ⟨-, -, -, mods, ds, -, hds, rfl⟩ := State.endLine_clean_iff.1 ⟨h, hf⟩
  obtain ⟨label, a, hheader⟩ := hs.header hstarted
  refine ⟨?_, rfl⟩
  rw [List.append_assoc]
  exact (extends_setLength hheader _ hds hs.ripe).1.append _

theorem extends_line (hs : Underway s) (h : s.line table use l = .ok s') (hf : s'.found = []) :
    Extends Draft.Grown s.drafts s'.drafts ∧ (s'.ended = false → Underway s') := by
  by_cases hl : l.mnemonic = "START"
  · rw [State.line_start hl] at h
    obtain rfl := Except.ok.inj h
    refine ⟨(Extends.refl Draft.Grown.refl _).append _,
      fun _ => ⟨fun r hr => ?_, fun _ => ⟨l.label, (s.startLine l).counter, ?_⟩⟩⟩
    · rcases List.mem_append.1 hr with hr | hr
      · exact hs.ripe r hr
      · rw [List.mem_singleton.1 hr]
        trivial
    · exact List.getElem?_concat_length
  · have hstarted := (State.frame_of_line hl h hf).2.1
    have hexpect : s.expectStarted = s := if_pos hstarted
    by_cases hsection : l.mnemonic = "CSECT"
    · unfold State.line at h
      rw [(Statement.ofMnemonic_eq_newSection_iff _ _).2 hsection, hexpect] at h
      obtain ⟨hgrown, hs'⟩ := hs.sectionLine hstarted h hf
      exact ⟨hgrown, fun _ => hs'⟩
    · rw [State.line_eq hl hsection, hexpect] at h
      cases hn : s.noteLabel l with
      | error x => simp [hn] at h
      | ok s₁ =>
        simp only [hn] at h
        have hf₁ := (State.frame_of_bodyLine h hf).1
        obtain ⟨hlabel, hripe, hplace⟩ := extends_noteLabel hs.ripe hn hf₁
        have hstarted₁ : s₁.started = true := (State.frame_of_noteLabel hn hf₁).2.1.trans hstarted
        have hs₁ : Underway s₁ := by
          refine ⟨hripe, fun _ => ?_⟩
          obtain ⟨label, a, hheader⟩ := hs.header hstarted
          exact ⟨label, a, hplace ▸ hlabel.header hheader⟩
        have hgrown : Extends Draft.Grown s.drafts s₁.drafts := hlabel.mono .filled
        by_cases hend : Statement.ofMnemonic .sectioned table l.mnemonic = .finish
        · rw [hend] at h
          obtain ⟨hended, he⟩ := hs₁.endLine hstarted₁ h hf
          exact ⟨hgrown.trans Draft.Grown.trans hended,
            fun he' => absurd (he.symm.trans he') (by decide)⟩
        · obtain ⟨r, hdrafts, hr, hplace'⟩ := drafts_of_bodyLine hend h hf
          refine ⟨by rw [hdrafts]; exact hgrown.append _, fun _ => ⟨fun q hq => ?_, fun _ => ?_⟩⟩
          · rw [hdrafts] at hq
            rcases List.mem_append.1 hq with hq | hq
            · exact hripe q hq
            · exact List.mem_singleton.1 hq ▸ hr
          · obtain ⟨label, a, hheader⟩ := hs₁.header hstarted₁
            refine ⟨label, a, ?_⟩
            rw [hdrafts, hplace', List.getElem?_append_left (List.getElem?_eq_some_iff.1 hheader).1]
            exact hheader

theorem growing (table : OpTable) (use : NameUse) :
    (pass table use).Growing (fun s => s.found = []) State.drafts Draft.Grown Underway where
  refl := Draft.Grown.refl
  trans := Draft.Grown.trans
  clean_of_step {_ n _ _} h hf := (State.stepping table use).clean_of_step (n := n) h hf
  step hs _ h hf := extends_line hs h hf
  close hf := ⟨(List.append_eq_nil_iff.1 hf).1, rfl⟩

end Sectioned

/-! ## Snapshots -/

/-- If the later snapshot shows records, then the earlier one did, and its records have become the
first ones of the later. -/
def Snapshot.GrowsInto (v w : Snapshot) : Prop :=
  ∀ after, w.records = some after → ∃ before, v.records = some before ∧
    Extends ObjectRecord.Grown before after

theorem Absolute.snapshots_grow (table : OpTable) (use : NameUse) (program : List Line) :
    (trace table use program).snapshots.Pairwise Snapshot.GrowsInto := by
  refine ((growing table use).pairwise (fun _ _ => by simp [HeadersOpen, State.start]) 1
    program).imp ?_
  intro v w hvw after hafter
  obtain ⟨s, t, hv, hw, hlead⟩ := hvw
  obtain rfl := Except.ok.inj hv
  obtain rfl := Except.ok.inj hw
  simp only [State.view, Option.ite_none_right_eq_some, List.isEmpty_iff, Option.some.injEq]
    at hafter
  obtain ⟨hfound, rfl⟩ := hafter
  obtain ⟨hs, hgrown⟩ := hlead hfound
  exact ⟨s.records, by simp [State.view, hs], hgrown⟩

theorem Pass.Growing.snapshots_grow {σ : Type} {p : Pass σ} {d : Dialect}
    (hd : d.strategy = .onePass) {found : σ → List Diagnostic} {drafts : σ → List Draft}
    {symbols : σ → Symbols} {Inv : σ → Prop}
    (h : p.Growing (fun s => found s = []) drafts Draft.Grown Inv)
    (hview : ∀ s, p.view s = (Draft.records d (drafts s)).map fun rs =>
      ⟨if (found s).isEmpty then some rs else none, symbols s, found s⟩)
    {s : σ} (hs : Inv s) (n : Nat) (ls : List Line) :
      (p.trace s n ls).snapshots.Pairwise Snapshot.GrowsInto := by
  refine (h.pairwise (fun _ _ => hs) n ls).imp ?_
  intro v w hvw after hafter
  obtain ⟨s, t, hv, hw, hlead⟩ := hvw
  rw [hview, map_eq_ok_iff] at hv hw
  obtain ⟨os, hos, rfl⟩ := hv
  obtain ⟨os', hos', rfl⟩ := hw
  simp only [Option.ite_none_right_eq_some, List.isEmpty_iff, Option.some.injEq] at hafter
  obtain ⟨hfound, rfl⟩ := hafter
  obtain ⟨hclean, hgrown⟩ := hlead hfound
  exact ⟨os, by simp [hclean], hgrown.records hd hos hos'⟩

theorem Relocatable.snapshots_grow (table : OpTable) (use : NameUse) (program : List Line) :
    (trace table use program).snapshots.Pairwise Snapshot.GrowsInto := by
  have hstart : Underway State.start := ⟨by simp [State.start], nofun, fun _ => rfl⟩
  exact (growing table use).snapshots_grow (d := dialect) rfl (fun _ => rfl) hstart 1 program

theorem Sectioned.snapshots_grow (table : OpTable) (use : NameUse) (program : List Line) :
    (trace table use program).snapshots.Pairwise Snapshot.GrowsInto := by
  have hstart : Underway State.start := ⟨by simp [State.start], nofun⟩
  exact (growing table use).snapshots_grow (d := dialect) rfl (fun _ => rfl) hstart 1 program

/-- Of any two snapshots of a run, if the later one shows records then the earlier one did.  There
were not more of them, and each has only grown at its end: it is printed in front of what is printed
at its place later. -/
theorem shown_records_extend (layout : Layout) (table : OpTable) (use : NameUse)
    (program : List Line) {i j : Nat} (hij : i < j) {v w : Snapshot}
    (hv : (traceProgram layout table use program).snapshots[i]? = some v)
    (hw : (traceProgram layout table use program).snapshots[j]? = some w)
    {after : List ObjectRecord} (hafter : w.records = some after) :
    ∃ before, v.records = some before ∧ before.length ≤ after.length ∧
      ∀ (k : Nat) (r r' : ObjectRecord), before[k]? = some r → after[k]? = some r' →
        r.Grown r' ∧ (r.text layout.traceStyle).toList <+: (r'.text layout.traceStyle).toList := by
  have hgrow : (traceProgram layout table use program).snapshots.Pairwise Snapshot.GrowsInto := by
    cases layout with
    | absolute => exact Absolute.snapshots_grow table use program
    | relocatable => exact Relocatable.snapshots_grow table use program
    | sectioned => exact Sectioned.snapshots_grow table use program
  obtain ⟨hi, rfl⟩ := List.getElem?_eq_some_iff.1 hv
  obtain ⟨hj, rfl⟩ := List.getElem?_eq_some_iff.1 hw
  obtain ⟨before, hbefore, hext⟩ := List.pairwise_iff_getElem.1 hgrow i j hi hj hij after hafter
  refine ⟨before, hbefore, hext.length_le, fun k r r' hr hr' => ?_⟩
  exact ⟨hext.kept hr hr', (hext.kept hr hr').text_prefix_text _⟩

/-- A jump to an exported label that comes later. -/
def exportedJump : List Line :=
  [⟨some "P", ⟨"START", []⟩⟩, ⟨none, ⟨"EXTDEF", [.direct "X"]⟩⟩, ⟨none, ⟨"JMP", [.direct "Y"]⟩⟩,
    ⟨some "X", ⟨"RESB", [.number 1]⟩⟩, ⟨some "Y", ⟨"END", []⟩⟩]

/-- The header, the exported name and the jump of the second snapshot are open, and filled in the
last one. -/
theorem exportedJump_extends :
    ∃ (v w : Snapshot) (before after : List ObjectRecord),
      (traceProgram .sectioned (.ofTriples [("JMP", 1, 4)])
        (.ofIndex 2) exportedJump).snapshots[1]? = some v ∧
      (traceProgram .sectioned (.ofTriples [("JMP", 1, 4)])
        (.ofIndex 2) exportedJump).snapshots[3]? = some w ∧
      v.records = some before ∧ w.records = some after ∧
      before.map (·.text .drafted) = ["H P 000000", "D X ", "T 000000 4 05"] ∧
      after.map (·.text .drafted) =
        ["H P 000000 5", "D X 000004", "T 000000 4 05000005", "T 000004 1 ", "M 000000",
          "E 000000"] ∧
      before.length ≤ after.length ∧ ∀ (k : Nat) (r r' : ObjectRecord), before[k]? = some r →
      after[k]? = some r' →
        r.Grown r' ∧ (r.text .drafted).toList <+: (r'.text .drafted).toList := by
  obtain ⟨v, w, before, after, hv, hw, hbefore, hafter, htexts, htexts'⟩ :
      ∃ (v w : Snapshot) (before after : List ObjectRecord),
        (traceProgram .sectioned (.ofTriples [("JMP", 1, 4)])
          (.ofIndex 2) exportedJump).snapshots[1]? = some v ∧
      (traceProgram .sectioned (.ofTriples [("JMP", 1, 4)])
        (.ofIndex 2) exportedJump).snapshots[3]? = some w ∧
      v.records = some before ∧ w.records = some after ∧
      before.map (·.text .drafted) = ["H P 000000", "D X ", "T 000000 4 05"] ∧
      after.map (·.text .drafted) =
        ["H P 000000 5", "D X 000004", "T 000000 4 05000005", "T 000004 1 ", "M 000000",
          "E 000000"] :=
    ⟨_, _, _, _, rfl, rfl, rfl, rfl, by decide +kernel, by decide +kernel⟩
  obtain ⟨before', hbefore', hle, hall⟩ :=
    shown_records_extend .sectioned _ _ exportedJump (by decide) hv hw hafter
  obtain rfl := Option.some.inj (hbefore.symm.trans hbefore')
  exact ⟨v, w, before, after, hv, hw, hbefore, hafter, htexts, htexts', hle, hall⟩

end OnePass

end Assembler
