import Assembler.Assembly
import Assembler.Source
import Assembler.Proofs.AbsolutePass
import Assembler.Proofs.FlatListing
import Assembler.Proofs.RelocatablePass
import Assembler.Proofs.SectionedListing

/-! # The numbers of lines in diagnostics

A pass counts the lines it is given, and these are only the lines of the source text that hold a
command.  Whatever a line adds to the diagnostics carries its number in this count (`Adds`), so that
the number is that of the line in the source text if and only if every line before it holds a
command (`line_numbers_count_commands`). -/

namespace Assembler
set_option autoImplicit false

/-! ## Lines of a source text -/

namespace Source

/-- The command that a line of text holds. -/
def lineOf? (d : Dialect) (cs : List Char) : Option Line :=
  match Reader.readFront (Grammar.line d) (String.ofList cs) with
  | .ok (read, _) => read
  | .error _ => none

variable {d : Dialect} {n : Nat} {texts : List (List Char)} {src : Source}

theorem lines_ofLines (h : ofLines d n texts = .ok src) :
    src.lines = texts.filterMap (lineOf? d) := by
  induction texts generalizing n src with
  | nil =>
    cases h
    rfl
  | cons cs texts ih =>
    rw [ofLines] at h
    split at h
    · next read rest hread =>
      obtain ⟨s, hs, rfl⟩ := (map_eq_ok_iff _ _ _).1 h
      have hline : lineOf? d cs = read := by rw [lineOf?, hread]
      rw [List.filterMap_cons, hline, ← ih hs]
      cases read <;> rfl
    · next place hread =>
      obtain ⟨s, hs, rfl⟩ := (map_eq_ok_iff _ _ _).1 h
      have hline : lineOf? d cs = none := by rw [lineOf?, hread]
      rw [List.filterMap_cons, hline, ← ih hs]
    · cases h

theorem number_of_mem_bad (h : ofLines d n texts = .ok src) {b : BadLine} (hb : b ∈ src.bad) :
    ∃ m, b.number = n + m ∧ texts[m]? = some b.text := by
  induction texts generalizing n src with
  | nil =>
    cases h
    cases hb
  | cons cs texts ih =>
    have hlater : ∀ {s : Source}, ofLines d (n + 1) texts = .ok s → b ∈ s.bad →
        ∃ m, b.number = n + m ∧ (cs :: texts)[m]? = some b.text := by
      intro s hs hb
      obtain ⟨m, hm, htext⟩ := ih hs hb
      exact ⟨m + 1, by omega, by rw [List.getElem?_cons_succ, htext]⟩
    rw [ofLines] at h
    split at h
    · next read _ _ =>
      obtain ⟨s, hs, rfl⟩ := (map_eq_ok_iff _ _ _).1 h
      refine hlater hs ?_
      cases read <;> exact hb
    · obtain ⟨s, hs, rfl⟩ := (map_eq_ok_iff _ _ _).1 h
      rcases List.mem_cons.1 hb with rfl | hb
      · exact ⟨0, rfl, rfl⟩
      · exact hlater hs hb
    · cases h

end Source

theorem exists_of_getElem?_filterMap {α β : Type} {f : α → Option β} {xs : List α} {i : Nat} {y : β}
    (h : (xs.filterMap f)[i]? = some y) :
    ∃ m x, xs[m]? = some x ∧ f x = some y ∧ (xs.take m).countP (fun x => (f x).isSome) = i := by
  induction xs generalizing i with
  | nil => simp at h
  | cons x xs ih =>
    cases hx : f x with
    | none =>
      rw [List.filterMap_cons_none hx] at h
      obtain ⟨m, z, hz, hy, hcount⟩ := ih h
      exact ⟨m + 1, z, hz, hy, by simp [hx, hcount]⟩
    | some z =>
      rw [List.filterMap_cons_some hx] at h
      cases i with
      | zero =>
        rw [List.getElem?_cons_zero, Option.some.injEq] at h
        exact ⟨0, x, rfl, h ▸ hx, rfl⟩
      | succ i =>
        rw [List.getElem?_cons_succ] at h
        obtain ⟨m, w, hw, hy, hcount⟩ := ih h
        exact ⟨m + 1, w, hw, hy, by simp [hx, hcount]⟩

/-! ## What a line adds -/

section

variable {σ : Type} {step : σ → Nat → Line → Except Fault σ} {ended : σ → Bool}
  {found : σ → List Diagnostic}

/-- A line adds a diagnostic: the lines before it lead to a state from which it is taken in, and the
diagnostic is among those found then and not before. -/
def AddedBy (step : σ → Nat → Line → Except Fault σ) (ended : σ → Bool)
    (found : σ → List Diagnostic) (s₀ : σ) (n : Nat) (ls : List Line) (i : Nat) (l : Line)
    (x : Diagnostic) : Prop :=
  ls[i]? = some l ∧ ∃ s s' new, runLines step ended s₀ n (ls.take i) = .ok s ∧ ended s = false ∧
    step s (n + i) l = .ok s' ∧ found s' = found s ++ new ∧ x ∈ new

theorem AddedBy.cons {s s₁ : σ} {n : Nat} {l l' : Line} {ls : List Line} {i : Nat} {x : Diagnostic}
    (he : ended s = false) (hstep : step s n l = .ok s₁)
    (h : AddedBy step ended found s₁ (n + 1) ls i l' x) :
    AddedBy step ended found s n (l :: ls) (i + 1) l' x := by
  obtain ⟨hl', s₂, s₃, new, hrun, he₂, hstep₂, hfound, hx⟩ := h
  refine ⟨hl', s₂, s₃, new, ?_, he₂, ?_, hfound, hx⟩
  · rw [List.take_succ_cons, runLines_cons he, hstep]
    exact hrun
  · rw [← hstep₂, Nat.add_assoc, Nat.add_comm 1 i]

theorem AddedBy.of_take {s : σ} {n k : Nat} {l : Line} {ls : List Line} {i : Nat} {x : Diagnostic}
    (h : AddedBy step ended found s n (ls.take k) i l x) :
    AddedBy step ended found s n ls i l x := by
  obtain ⟨hl, hrest⟩ := h
  rw [List.getElem?_take] at hl
  split at hl
  · next hi =>
    rw [List.take_take, min_eq_left (by omega)] at hrest
    exact ⟨hl, hrest⟩
  · cases hl

theorem mem_found_of_runLines
    (hadds : ∀ {s n l s'}, step s n l = .ok s' → Adds n (found s) (found s')) {s s' : σ} {n : Nat}
    {ls : List Line} (h : runLines step ended s n ls = .ok s') {x : Diagnostic}
    (hx : x ∈ found s') :
    x ∈ found s ∨ ∃ i l, AddedBy step ended found s n ls i l x ∧ x.site = .line (n + i : Nat) := by
  induction ls generalizing s n with
  | nil =>
    cases h
    exact .inl hx
  | cons l ls ih =>
    cases he : ended s with
    | true =>
      rw [runLines_of_ended he] at h
      cases h
      exact .inl hx
    | false =>
      rw [runLines_cons he] at h
      cases hstep : step s n l with
      | error y => simp [hstep] at h
      | ok s₁ =>
        simp only [hstep] at h
        obtain ⟨ps, hps⟩ := hadds hstep
        obtain hx | ⟨i, l', hadded, hsite⟩ := ih h
        · rw [hps] at hx
          rcases List.mem_append.1 hx with hx | hx
          · exact .inl hx
          · refine .inr ⟨0, l, ⟨rfl, s, s₁, _, rfl, he, hstep, hps, hx⟩, ?_⟩
            obtain ⟨p, -, rfl⟩ := List.mem_map.1 hx
            rfl
        · refine .inr ⟨i + 1, l', hadded.cons he hstep, ?_⟩
          rw [hsite, Nat.add_assoc, Nat.add_comm 1 i]

theorem OnePass.exists_run_of_mem_snapshots {p : Pass σ} {s : σ} {n : Nat} {ls : List Line}
    {v : Snapshot} (h : v ∈ (p.trace s n ls).snapshots) :
    ∃ k s', runLines p.step p.ended s n (ls.take k) = .ok s' ∧
      (p.view s' = .ok v ∨ p.view (p.close s') = .ok v) := by
  have hclose : v ∈ (Trace.cons (p.view (p.close s)) .nothing).snapshots → ∃ k s',
      runLines p.step p.ended s n (ls.take k) = .ok s' ∧
      (p.view s' = .ok v ∨ p.view (p.close s') = .ok v) := by
    intro h
    obtain h | h := mem_snapshots_cons h
    · exact ⟨0, s, rfl, .inr h⟩
    · cases h
  induction ls generalizing s n with
  | nil => exact hclose h
  | cons l ls ih =>
    rw [Pass.trace] at h
    split at h
    · exact hclose h
    · next he =>
      have he : p.ended s = false := by simpa using he
      cases hstep : p.step s n l with
      | error x =>
        rw [hstep] at h
        cases h
      | ok s₁ =>
        have hrest : v ∈ (p.trace s₁ (n + 1) ls).snapshots → ∃ k s',
            runLines p.step p.ended s n ((l :: ls).take k) = .ok s' ∧
            (p.view s' = .ok v ∨ p.view (p.close s') = .ok v) := by
          intro h
          obtain ⟨k, s', hrun, hview⟩ := ih h fun h => by
            obtain h | h := mem_snapshots_cons h
            · exact ⟨0, s₁, rfl, .inr h⟩
            · cases h
          exact ⟨k + 1, s', by rw [List.take_succ_cons, runLines_cons he, hstep]; exact hrun, hview⟩
        simp only [hstep] at h
        split at h
        · obtain h | h := mem_snapshots_cons h
          · exact ⟨1, s₁, by rw [List.take_succ_cons, runLines_cons he, hstep]; rfl, .inl h⟩
          · exact hrest h
        · exact hrest h

end

/-! ## The passes -/

namespace TwoPass.Flat.Scan

variable {d : Dialect} {table : OpTable} {use : NameUse} {s s' : Scan} {n : Nat} {l : Line}

theorem adds_noted (s : Scan) (n : Nat) (l : Line) :
    Adds n s.found ((s.expectStarted n).noteLabel n l).found := by
  have hexpect : Adds n s.found (s.expectStarted n).found := by
    unfold expectStarted
    split
    · exact .refl _ _
    · exact .report _ _ _
  refine hexpect.trans ?_
  unfold noteLabel
  split
  · exact .refl _ _
  · split <;> exact .report _ _ _

theorem adds_line (h : s.line d table use n l = .ok s') : Adds n s.found s'.found := by
  unfold line at h
  split at h
  · cases h
    exact .report _ _ _
  · cases h
    exact (adds_noted s n l).trans (.report _ _ _)
  · refine (adds_noted s n l).trans ?_
    unfold storageLine at h
    split at h
    · cases h
      exact .report _ _ _
    · obtain ⟨ps, -, rfl⟩ := (map_eq_ok_iff _ _ _).1 h
      exact .report _ _ _
  · obtain ⟨ps, -, rfl⟩ := (map_eq_ok_iff _ _ _).1 h
    exact (adds_noted s n l).trans (.report _ _ _)
  · cases h
    exact (adds_noted s n l).trans (.report _ _ _)

end TwoPass.Flat.Scan

namespace TwoPass.Sectioned.Scan

variable {table : OpTable} {use : NameUse} {s s' : Scan} {n : Nat} {l : Line}

theorem adds_expectStarted (s : Scan) (n : Nat) : Adds n s.found (s.expectStarted n).found := by
  unfold expectStarted
  split
  · exact .refl _ _
  · exact .report _ _ _

theorem adds_noteLabel (h : s.noteLabel n l = .ok s') : Adds n s.found s'.found := by
  unfold noteLabel at h
  split at h
  · cases h
    exact .refl _ _
  · obtain ⟨ns, -, rfl⟩ := (map_eq_ok_iff _ _ _).1 h
    split
    · exact .refl _ _
    · split
      · exact .refl _ _
      · exact .report _ _ _

theorem adds_bodyLine {stmt : Statement} (h : s.bodyLine use stmt n l = .ok s') :
    Adds n s.found s'.found := by
  unfold bodyLine at h
  split at h
  · cases h
    exact .report _ _ _
  · unfold storageLine at h
    split at h
    · cases h
      exact .report _ _ _
    · obtain ⟨ps, -, rfl⟩ := (map_eq_ok_iff _ _ _).1 h
      exact .report _ _ _
  · unfold exportLine at h
    simp only at h
    split at h
    · cases h
      exact .report _ _ _
    · obtain ⟨ns, -, rfl⟩ := (map_eq_ok_iff _ _ _).1 h
      split
      · exact .refl _ _
      · split
        · exact .refl _ _
        · exact .report _ _ _
  · unfold importLine at h
    simp only at h
    split at h
    · cases h
      exact .report _ _ _
    · obtain ⟨ns, -, rfl⟩ := (map_eq_ok_iff _ _ _).1 h
      exact .report _ _ _
  · obtain ⟨ps, -, rfl⟩ := (map_eq_ok_iff _ _ _).1 h
    exact .report _ _ _
  · cases h
    exact .report _ _ _

theorem adds_line (h : s.line table use n l = .ok s') : Adds n s.found s'.found := by
  unfold line at h
  split at h
  · cases h
    exact .report _ _ _
  · cases h
    refine (adds_expectStarted s n).trans ?_
    exact (Adds.report n _ _).trans (.report n _ _)
  · refine (adds_expectStarted s n).trans ?_
    split at h
    · cases h
    · next s₁ hs₁ => exact (adds_noteLabel hs₁).trans (adds_bodyLine h)

end TwoPass.Sectioned.Scan

/-! ## Numbers in the source text -/

/-- What the first pass of a dialect finds wrong: of two passes the first may refuse the program,
one pass shows it. -/
def FirstPassFinds (d : Dialect) (table : OpTable) (use : NameUse) (program : List Line)
    (x : Diagnostic) : Prop :=
  match d.strategy with
  | .twoPass => ∃ found, listProgram d table use program = .ok (.refused found) ∧ x ∈ found
  | .onePass => ∃ v ∈ (traceProgram d.layout table use program).snapshots, x ∈ v.found

/-- The line at a place of a program adds a diagnostic when the first pass of a dialect takes it
in. -/
def ComesFrom (d : Dialect) (table : OpTable) (use : NameUse) (program : List Line) (i : Nat)
    (l : Line) (x : Diagnostic) :
    Prop :=
  match d.strategy, d.layout with
  | .twoPass, .sectioned =>
    AddedBy (TwoPass.Sectioned.Scan.line table use) (·.ended) (·.found) TwoPass.Sectioned.Scan.start
      1 program i l x
  | .twoPass, layout =>
    AddedBy (TwoPass.Flat.Scan.line d table use) (·.ended) (·.found) (.start layout) 1 program i l x
  | .onePass, .absolute =>
    AddedBy (OnePass.Absolute.State.line table use) (·.ended) (·.found) OnePass.Absolute.State.start
      1 program i l x
  | .onePass, .relocatable =>
    AddedBy (OnePass.Relocatable.State.line table use) (·.ended)
      (·.found) OnePass.Relocatable.State.start 1 program i l x
  | .onePass, .sectioned =>
    AddedBy (fun s _ => OnePass.Sectioned.State.line table use s) (·.ended)
      (·.found) OnePass.Sectioned.State.start 1 program i l x

variable {table : OpTable} {use : NameUse} {program : List Line} {x : Diagnostic}

theorem site_of_mem_report {ps : List Problem} (h : x ∈ Site.program.report ps) :
    x.site = .program := by
  obtain ⟨p, -, rfl⟩ := List.mem_map.1 h
  rfl

theorem TwoPass.Flat.site_of_list {d : Dialect} {found : List Diagnostic}
    (h : list d table use program = .ok (.refused found)) (hx : x ∈ found) :
    x.site = .program ∨ ∃ i l,
      AddedBy (Scan.line d table use) (·.ended) (·.found) (.start d.layout) 1 program i l x ∧
      x.site = .line (1 + i : Nat) := by
  obtain ⟨s, hrun, hlisting⟩ := (map_eq_ok_iff _ _ _).1 h
  unfold Scan.listing at hlisting
  split at hlisting <;> cases hlisting
  rcases List.mem_append.1 hx with hx | hx
  · rw [Scan.lines_eq_runLines] at hrun
    exact .inr ((mem_found_of_runLines Scan.adds_line hrun hx).resolve_left (by simp [Scan.start]))
  · exact .inl (site_of_mem_report hx)

theorem TwoPass.Sectioned.site_of_list {found : List Diagnostic}
    (h : list table use program = .ok (.refused found)) (hx : x ∈ found) :
    x.site = .program ∨ ∃ i l,
      AddedBy (Scan.line table use) (·.ended) (·.found) .start 1 program i l x ∧
      x.site = .line (1 + i : Nat) := by
  unfold list at h
  split at h
  · cases h
  · next s hrun =>
    split at h
    · have hlisting := Except.ok.inj h
      unfold Scan.listing at hlisting
      split at hlisting <;> cases hlisting
      rcases List.mem_append.1 hx with hx | hx
      · rw [Scan.lines_eq] at hrun
        exact .inr
          ((mem_found_of_runLines Scan.adds_line hrun hx).resolve_left (by simp [Scan.start]))
      · exact .inl (site_of_mem_report hx)
    · cases h

theorem OnePass.site_of_shown {σ : Type} {p : Pass σ} {found : σ → List Diagnostic}
    (hadds : ∀ {s n l s'}, p.step s n l = .ok s' → Adds n (found s) (found s'))
    (hview : ∀ {s v}, p.view s = .ok v → v.found = found s)
    (hclose : ∀ s, ∃ ps, found (p.close s) = found s ++ Site.program.report ps) {s : σ}
    (hs : found s = []) {v : Snapshot} (hv : v ∈ (p.trace s 1 program).snapshots)
    (hx : x ∈ v.found) :
    x.site = .program ∨ ∃ i l, AddedBy p.step p.ended found s 1 program i l x ∧
      x.site = .line (1 + i : Nat) := by
  obtain ⟨k, s', hrun, hshown⟩ := exists_run_of_mem_snapshots hv
  have hline : x ∈ found s' →
      ∃ i l, AddedBy p.step p.ended found s 1 program i l x ∧ x.site = .line (1 + i : Nat) := by
    intro hx
    obtain ⟨i, l, hadded, hsite⟩ :=
      (mem_found_of_runLines hadds hrun hx).resolve_left (by simp [hs])
    exact ⟨i, l, hadded.of_take, hsite⟩
  obtain hshown | hshown := hshown
  · rw [hview hshown] at hx
    exact .inr (hline hx)
  · obtain ⟨ps, hps⟩ := hclose s'
    rw [hview hshown, hps] at hx
    rcases List.mem_append.1 hx with hx | hx
    · exact .inr (hline hx)
    · exact .inl (site_of_mem_report hx)

theorem site_of_firstPassFinds {d : Dialect} (hd : d ≠ ⟨.sectioned, .onePass⟩)
    (hx : FirstPassFinds d table use program x) :
    x.site = .program ∨ ∃ i l, ComesFrom d table use program i l x ∧
      x.site = .line (1 + i : Nat) := by
  obtain ⟨layout, strategy⟩ := d
  cases strategy with
  | twoPass =>
    obtain ⟨found, hlist, hx⟩ := hx
    cases layout with
    | sectioned => exact TwoPass.Sectioned.site_of_list hlist hx
    | absolute => exact TwoPass.Flat.site_of_list hlist hx
    | relocatable => exact TwoPass.Flat.site_of_list hlist hx
  | onePass =>
    obtain ⟨v, hv, hx⟩ := hx
    cases layout with
    | sectioned => exact absurd rfl hd
    | absolute =>
      refine OnePass.site_of_shown (p := OnePass.Absolute.pass table use)
        (fun h => (OnePass.Absolute.State.grows_line h).found) ?_ (fun s => ⟨_, rfl⟩) rfl hv hx
      intro s w hw
      cases hw
      rfl
    | relocatable =>
      refine OnePass.site_of_shown (p := OnePass.Relocatable.pass table use)
        (fun h => (OnePass.Relocatable.State.grows_line h).found) ?_
        (fun s => ⟨_, rfl⟩) rfl hv hx
      intro s w hw
      obtain ⟨rs, -, rfl⟩ := (map_eq_ok_iff _ _ _).1 hw
      rfl

/-- Lines that cannot be read are reported with their numbers in the source text.  Every diagnostic
of the first pass is of the program as a whole, or a line of the source text has added it; then its
number is how many lines up to that one hold a command, and that is the number of the line if and
only if all lines before it do. -/
theorem line_numbers_count_commands (d : Dialect) (hd : d ≠ ⟨.sectioned, .onePass⟩) (text : String)
    (src : Source) (hparse : Source.parse d text = .ok src) (table : OpTable) (use : NameUse)
    (x : Diagnostic) (hx : FirstPassFinds d table use src.lines x) :
    (∀ b ∈ src.bad, ∃ m, b.number = m + 1 ∧ (Text.splitLines text.toList)[m]? = some b.text) ∧
      (x.site = .program ∨ ∃ i m l cs, ComesFrom d table use src.lines i l x ∧
        (Text.splitLines text.toList)[m]? = some cs ∧ Source.lineOf? d cs = some l ∧
        ((Text.splitLines text.toList).take m).countP (fun cs => (Source.lineOf? d cs).isSome) = i ∧
        x.site = .line (i + 1 : Nat) ∧
        (x.site = .line (m + 1 : Nat) ↔
          ∀ cs ∈ (Text.splitLines text.toList).take m, (Source.lineOf? d cs).isSome = true)) := by
  refine ⟨fun b hb => ?_, ?_⟩
  · obtain ⟨m, hm, htext⟩ := Source.number_of_mem_bad hparse hb
    exact ⟨m, by omega, htext⟩
  · obtain hsite | ⟨i, l, hcomes, hsite⟩ := site_of_firstPassFinds hd hx
    · exact .inl hsite
    · have hl : src.lines[i]? = some l := by
        obtain ⟨layout, strategy⟩ := d
        cases strategy <;> cases layout <;> exact hcomes.1
      rw [Source.lines_ofLines hparse] at hl
      obtain ⟨m, cs, hcs, hline, hcount⟩ := exists_of_getElem?_filterMap hl
      have hm : m < (Text.splitLines text.toList).length := (List.getElem?_eq_some_iff.1 hcs).1
      rw [Nat.add_comm] at hsite
      refine .inr ⟨i, m, l, cs, hcomes, hcs, hline, hcount, hsite, ?_⟩
      have hall := List.countP_eq_length (p := fun cs => (Source.lineOf? d cs).isSome)
        (l := (Text.splitLines text.toList).take m)
      rw [hcount, List.length_take, min_eq_left (by omega)] at hall
      rw [← hall, hsite, Site.line.injEq]
      omega

/-- A source text with an unknown command in its fourth line. -/
def silentText : String := "\n; text\nP: START 1\n FOO\n END"

/-- The lines of the source text that hold commands. -/
def silentLines : List Line :=
  [⟨some "P", ⟨"START", [.number 1]⟩⟩, ⟨none, ⟨"FOO", []⟩⟩, ⟨none, ⟨"END", []⟩⟩]

/-- The unknown command is reported as one of the second line. -/
theorem silentText_second :
    Source.parse ⟨.absolute, .twoPass⟩ silentText = .ok ⟨silentLines, []⟩ ∧
      FirstPassFinds ⟨.absolute, .twoPass⟩ ∅ (.ofIndex 2) silentLines
        ⟨.line 2, .unknownCommand "FOO"⟩ ∧
      ∃ i m l cs, ComesFrom ⟨.absolute, .twoPass⟩ ∅ (.ofIndex 2) silentLines i l
        ⟨.line 2, .unknownCommand "FOO"⟩ ∧
        (Text.splitLines silentText.toList)[m]? = some cs ∧
        Source.lineOf? ⟨.absolute, .twoPass⟩ cs = some l ∧
        ((Text.splitLines silentText.toList).take m).countP
          (fun cs => (Source.lineOf? ⟨.absolute, .twoPass⟩ cs).isSome) = i ∧
        i = 1 ∧ m ≠ 1 := by
  have hparse : Source.parse ⟨.absolute, .twoPass⟩ silentText = .ok ⟨silentLines, []⟩ := by
    decide +kernel
  have hfinds :
      FirstPassFinds ⟨.absolute, .twoPass⟩ ∅ (.ofIndex 2) silentLines
        ⟨.line 2, .unknownCommand "FOO"⟩ :=
    ⟨_, rfl, by decide +kernel⟩
  obtain ⟨-, hsite | ⟨i, m, l, cs, hcomes, hcs, hline, hcount, hsite, hiff⟩⟩ :=
    line_numbers_count_commands ⟨.absolute, .twoPass⟩ (by decide) silentText _ hparse ∅
      (.ofIndex 2) _ hfinds
  · cases hsite
  · have hi : i = 1 := by
      have hnumber := Site.line.inj hsite
      omega
    refine ⟨hparse, hfinds, i, m, l, cs, hcomes, hcs, hline, hcount, hi, ?_⟩
    rintro rfl
    have hfirst : ¬ ∀ cs ∈ (Text.splitLines silentText.toList).take 1,
        (Source.lineOf? ⟨.absolute, .twoPass⟩ cs).isSome = true := by decide +kernel
    exact hfirst (hiff.1 rfl)

end Assembler
