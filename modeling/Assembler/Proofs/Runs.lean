import Mathlib.Tactic.Common
import Assembler.OnePass.Trace
import Assembler.Proofs.Placement

/-! # Runs over the lines of a program

Every pass takes in the lines of a program one by one until the end directive.  `runLines` is that
loop for any step, and `runLines_clean_iff` cuts a run that nothing was wrong with into the lines
before the end directive, each of which left no problem, and the end directive itself.  The trace of
one pass is such a run too, of steps that are watched (`Pass.trace_getLast?_eq_iff`). -/

namespace Assembler
set_option autoImplicit false

variable {σ : Type}

/-- Takes in the lines from the given number on, up to the end directive. -/
def runLines (step : σ → Nat → Line → Except Fault σ) (ended : σ → Bool) :
    σ → Nat → List Line → Except Fault σ
  | s, _, [] => .ok s
  | s, n, l :: rest =>
    if ended s then .ok s
    else
      match step s n l with
      | .error x => .error x
      | .ok s' => runLines step ended s' (n + 1) rest

/-- Lines taken in one after another, after each of which the state is clean. -/
def CleanSteps (step : σ → Nat → Line → Except Fault σ) (clean : σ → Prop) :
    σ → Nat → List Line → σ → Prop
  | s, _, [], s' => s = s'
  | s, n, l :: ls, s' =>
    ∃ s₁, step s n l = .ok s₁ ∧ clean s₁ ∧ CleanSteps step clean s₁ (n + 1) ls s'

/-- What the cutting of a run needs to know of a step: a problem stays, only the end directive ends,
and a start directive is let through at the beginning and nowhere else. -/
structure Stepping (step : σ → Nat → Line → Except Fault σ) (started ended : σ → Bool)
    (clean : σ → Prop) : Prop where
  clean_of_step : ∀ {s n l s'}, step s n l = .ok s' → clean s' → clean s
  start_iff : ∀ {s n l s'}, step s n l = .ok s' → clean s' →
    (l.mnemonic = "START" ↔ started s = false)
  started_of_step : ∀ {s n l s'}, step s n l = .ok s' → clean s' → started s' = true
  ended_iff : ∀ {s n l s'}, ended s = false → step s n l = .ok s' → clean s' →
    (ended s' = true ↔ l.mnemonic = "END")

variable {step : σ → Nat → Line → Except Fault σ} {started ended : σ → Bool} {clean : σ → Prop}

/-- A step is known by what start directives and what all other lines do. -/
theorem Stepping.of_lines
    (hstart : ∀ {s n l s'}, l.mnemonic = "START" → step s n l = .ok s' → clean s' →
      clean s ∧ started s = false ∧ started s' = true ∧ ended s' = ended s)
    (hline : ∀ {s n l s'}, l.mnemonic ≠ "START" → step s n l = .ok s' → clean s' →
      clean s ∧ started s = true ∧ started s' = true ∧
      (ended s = false → (ended s' = true ↔ l.mnemonic = "END"))) :
    Stepping step started ended clean where
  clean_of_step {_ _ l _} h hc := by
    by_cases hl : l.mnemonic = "START"
    · exact (hstart hl h hc).1
    · exact (hline hl h hc).1
  start_iff {_ _ l _} h hc := by
    by_cases hl : l.mnemonic = "START"
    · simp [hl, (hstart hl h hc).2.1]
    · simp [hl, (hline hl h hc).2.1]
  started_of_step {_ _ l _} h hc := by
    by_cases hl : l.mnemonic = "START"
    · exact (hstart hl h hc).2.2.1
    · exact (hline hl h hc).2.2.1
  ended_iff {_ _ l _} hn h hc := by
    by_cases hl : l.mnemonic = "START"
    · simp [hl, (hstart hl h hc).2.2.2, hn]
    · exact (hline hl h hc).2.2.2 hn

theorem Stepping.started_of_ne_start (h : Stepping step started ended clean) {s s' : σ} {n : Nat}
    {l : Line} (hl : l.mnemonic ≠ "START") (hs : step s n l = .ok s') (hc : clean s') :
    started s = true := by
  by_contra hno
  exact hl ((h.start_iff hs hc).2 (Bool.eq_false_iff.2 hno))

theorem runLines_cons {s : σ} (he : ended s = false) (n : Nat) (l : Line) (ls : List Line) :
    runLines step ended s n (l :: ls) =
      match step s n l with
      | .error x => .error x
      | .ok s' => runLines step ended s' (n + 1) ls := by
  simp [runLines, he]

theorem runLines_of_ended {s : σ} (he : ended s = true) (n : Nat) (ls : List Line) :
    runLines step ended s n ls = .ok s := by
  cases ls <;> simp [runLines, he]

theorem Stepping.not_ended (hp : Stepping step started ended clean) {s s' : σ} {n : Nat} {l : Line}
    (he : ended s = false) (h : step s n l = .ok s') (hc : clean s') (hl : l.mnemonic ≠ "END") :
    ended s' = false := by
  cases hx : ended s' with
  | false => rfl
  | true => exact absurd ((hp.ended_iff he h hc).1 hx) hl

theorem clean_of_runLines (hp : Stepping step started ended clean) {s s' : σ} {n : Nat}
    {ls : List Line} (h : runLines step ended s n ls = .ok s') (hc : clean s') : clean s := by
  induction ls generalizing s n with
  | nil => cases h; exact hc
  | cons l ls ih =>
    cases he : ended s with
    | true => rw [runLines_of_ended he] at h; cases h; exact hc
    | false =>
      rw [runLines_cons he] at h
      cases hs : step s n l with
      | error x => simp [hs] at h
      | ok s₁ =>
        simp only [hs] at h
        exact hp.clean_of_step hs (ih h)

/-- A run that is clean at its end was clean after every line; it consists of lines that are neither
start nor end directives and of the end directive. -/
theorem runLines_clean_iff (hp : Stepping step started ended clean) {s s' : σ}
    (hs : started s = true) (he : ended s = false) (n : Nat) (ls : List Line) :
    (runLines step ended s n ls = .ok s' ∧ clean s' ∧ ended s' = true) ↔
      ∃ body last rest s₁, ls = body ++ last :: rest ∧
      (∀ l ∈ body, l.mnemonic ≠ "START" ∧ l.mnemonic ≠ "END") ∧
        last.mnemonic = "END" ∧ CleanSteps step clean s n body s₁ ∧
        step s₁ (n + body.length) last = .ok s' ∧ clean s' := by
  induction ls generalizing s n with
  | nil =>
    constructor
    · rintro ⟨h, -, he'⟩
      cases h
      rw [he] at he'
      cases he'
    · rintro ⟨body, last, rest, s₁, h, -⟩
      simp at h
  | cons l ls ih =>
    rw [runLines_cons he]
    constructor
    · rintro ⟨h, hc, he'⟩
      cases hl : step s n l with
      | error x => simp [hl] at h
      | ok s₁ =>
        simp only [hl] at h
        have hc₁ : clean s₁ := clean_of_runLines hp h hc
        by_cases hend : l.mnemonic = "END"
        · have he₁ : ended s₁ = true := (hp.ended_iff he hl hc₁).2 hend
          rw [runLines_of_ended he₁] at h
          cases h
          exact ⟨[], l, ls, s, rfl, by simp, hend, rfl, hl, hc⟩
        · have he₁ : ended s₁ = false := hp.not_ended he hl hc₁ hend
          obtain ⟨body, last, rest, s₂, rfl, hb, hlast, hsteps, hst, -⟩ :=
            (ih (hp.started_of_step hl hc₁) he₁ (n + 1)).1 ⟨h, hc, he'⟩
          refine ⟨l :: body, last, rest, s₂, rfl, ?_, hlast, ⟨s₁, hl, hc₁, hsteps⟩, ?_, hc⟩
          · intro k hk
            rcases List.mem_cons.1 hk with rfl | hk
            · exact ⟨fun h => by simp [(hp.start_iff hl hc₁).1 h] at hs, hend⟩
            · exact hb k hk
          · rw [List.length_cons, ← Nat.add_assoc, Nat.add_right_comm]
            exact hst
    · rintro ⟨body, last, rest, s₂, h, hb, hlast, hsteps, hst, hc⟩
      cases body with
      | nil =>
        obtain ⟨rfl, rfl⟩ := List.cons.inj h
        cases hsteps
        rw [List.length_nil, Nat.add_zero] at hst
        have he₁ : ended s' = true := (hp.ended_iff he hst hc).2 hlast
        simp only [hst]
        exact ⟨runLines_of_ended he₁ _ _, hc, he₁⟩
      | cons k body =>
        obtain ⟨rfl, rfl⟩ := List.cons.inj h
        obtain ⟨s₁, hl, hc₁, hsteps⟩ := hsteps
        have he₁ : ended s₁ = false := hp.not_ended he hl hc₁ (hb l List.mem_cons_self).2
        simp only [hl]
        refine (ih (hp.started_of_step hl hc₁) he₁ (n + 1)).2 ⟨body, last, rest, s₂, rfl, ?_, hlast,
          hsteps, ?_, hc⟩
        · exact fun k hk => hb k (List.mem_cons_of_mem _ hk)
        · rw [List.length_cons, ← Nat.add_assoc, Nat.add_right_comm] at hst
          exact hst

/-- The same for a whole program: it begins with a start directive. -/
theorem runLines_program_iff (hp : Stepping step started ended clean) {s s' : σ}
    (hs : started s = false) (he : ended s = false) (n : Nat) (program : List Line) :
    (runLines step ended s n program = .ok s' ∧ clean s' ∧ ended s' = true) ↔
      ∃ first body last rest s₀ s₁, program = first :: (body ++ last :: rest) ∧
      first.mnemonic = "START" ∧
        (∀ l ∈ body, l.mnemonic ≠ "START" ∧ l.mnemonic ≠ "END") ∧ last.mnemonic = "END" ∧
        step s n first = .ok s₀ ∧ clean s₀ ∧ CleanSteps step clean s₀ (n + 1) body s₁ ∧
        step s₁ (n + 1 + body.length) last = .ok s' ∧ clean s' := by
  cases program with
  | nil =>
    constructor
    · rintro ⟨h, -, he'⟩
      cases h
      rw [he] at he'
      cases he'
    · rintro ⟨first, body, last, rest, s₀, s₁, h, -⟩
      cases h
  | cons first ls =>
    rw [runLines_cons he]
    constructor
    · rintro ⟨h, hc, he'⟩
      cases hl : step s n first with
      | error x => simp [hl] at h
      | ok s₀ =>
        simp only [hl] at h
        have hc₀ : clean s₀ := clean_of_runLines hp h hc
        have hstart := (hp.start_iff hl hc₀).2 hs
        have he₀ : ended s₀ = false := hp.not_ended he hl hc₀ (by simp [hstart])
        obtain ⟨body, last, rest, s₁, rfl, hb, hlast, hsteps, hst, -⟩ :=
          (runLines_clean_iff hp (hp.started_of_step hl hc₀) he₀ (n + 1) ls).1 ⟨h, hc, he'⟩
        exact ⟨first, body, last, rest, s₀, s₁, rfl, hstart, hb, hlast, hl, hc₀, hsteps, hst, hc⟩
    · rintro ⟨first', body, last, rest, s₀, s₁, h, hstart, hb, hlast, hl, hc₀, hsteps, hst, hc⟩
      obtain ⟨rfl, rfl⟩ := List.cons.inj h
      have he₀ : ended s₀ = false := hp.not_ended he hl hc₀ (by simp [hstart])
      simp only [hl]
      exact (runLines_clean_iff hp (hp.started_of_step hl hc₀) he₀ (n + 1) _).2
        ⟨body, last, rest, s₁, rfl, hb, hlast, hsteps, hst, hc⟩

/-- Lines of a flat body are taken in cleanly if and only if each meets the condition under which
one is, provided that an invariant on the rows placed so far carries over from line to line. -/
theorem cleanSteps_iff_allAlong {layout : Layout} {table : OpTable}
    (Inv : List (Row × Int) → Int → σ → Prop)
    (guard fit : Int → (String → Option Int) → Line → Prop)
    (hfit : ∀ {ps a s n l}, Inv ps a s → guard a (addressOf (ps.map (·.1))) l →
      l.mnemonic ≠ "START" ∧ l.mnemonic ≠ "END" →
      ((∃ s', step s n l = .ok s' ∧ clean s') ↔ fit a (addressOf (ps.map (·.1))) l))
    (hinv : ∀ {ps a s n l s'}, Inv ps a s → guard a (addressOf (ps.map (·.1))) l →
      l.mnemonic ≠ "START" ∧ l.mnemonic ≠ "END" → step s n l = .ok s' → clean s' →
      Inv (ps ++ [(⟨a, l, none⟩, l.extent layout table)]) (a + l.extent layout table) s')
    {ps : List (Row × Int)} {a : Int} {s : σ} (hs : Inv ps a s) (n : Nat) {body : List Line}
    (hb : ∀ l ∈ body, l.mnemonic ≠ "START" ∧ l.mnemonic ≠ "END")
    (hg : AllAlong layout table guard a (addressOf (ps.map (·.1))) body) :
    ((∃ s', CleanSteps step clean s n body s') ↔
      AllAlong layout table fit a (addressOf (ps.map (·.1))) body) ∧
      ∀ s', CleanSteps step clean s n body s' →
        Inv (ps ++ placed layout table none a body) (a + extentOf layout table body) s' := by
  induction body generalizing ps a s n with
  | nil =>
    refine ⟨⟨fun _ => trivial, fun _ => ⟨s, rfl⟩⟩, ?_⟩
    rintro s' rfl
    simpa [placed, extentOf] using hs
  | cons l body ih =>
    obtain ⟨hgl, hgs⟩ := hg
    have hl := hb l List.mem_cons_self
    have hknown : addressOf ((ps ++ [((⟨a, l, none⟩ : Row), l.extent layout table)]).map (·.1)) =
        labelled (addressOf (ps.map (·.1))) a l := by
      rw [List.map_append]
      exact addressOf_concat _ ⟨a, l, none⟩
    have ih := fun {s₁} (h₁ : Inv _ _ s₁) =>
      ih h₁ (n + 1) (fun k hk => hb k (List.mem_cons_of_mem _ hk)) (hknown ▸ hgs)
    rw [hknown] at ih
    constructor
    · constructor
      · rintro ⟨s', s₁, hstep, hc, hrest⟩
        exact ⟨(hfit hs hgl hl).1 ⟨s₁, hstep, hc⟩, (ih (hinv hs hgl hl hstep hc)).1.1 ⟨s', hrest⟩⟩
      · rintro ⟨hfl, hfs⟩
        obtain ⟨s₁, hstep, hc⟩ := (hfit (n := n) hs hgl hl).2 hfl
        obtain ⟨s', hrest⟩ := (ih (hinv hs hgl hl hstep hc)).1.2 hfs
        exact ⟨s', s₁, hstep, hc, hrest⟩
    · rintro s' ⟨s₁, hstep, hc, hrest⟩
      have e : a + l.extent layout table + extentOf layout table body = a + extentOf layout table
          (l :: body) := by
        rw [extentOf]; omega
      have h := (ih (hinv hs hgl hl hstep hc)).2 s' hrest
      rw [e, List.append_assoc] at h
      exact h

/-! ## Traces -/

namespace OnePass

variable (p : Pass σ)

/-- A run that is accepted: it ends without a fault, in a snapshot without problems. -/
def Trace.AcceptedWith (t : Trace) (v : Snapshot) : Prop :=
  t.fault = none ∧ t.snapshots.getLast? = some v ∧ v.found = []

/-- Takes in a line and shows what is to be shown after it. -/
def Pass.watched (s : σ) (n : Nat) (l : Line) : Except Fault σ :=
  match p.step s n l with
  | .error x => .error x
  | .ok s' => if p.shows l then (p.view s').map fun _ => s' else .ok s'

theorem Pass.watched_eq_ok_iff (s : σ) (n : Nat) (l : Line) (s' : σ) :
    p.watched s n l = .ok s' ↔ p.step s n l = .ok s' ∧
      (p.shows l = true → ∃ v, p.view s' = .ok v) := by
  unfold watched
  cases p.step s n l with
  | error x => simp
  | ok t =>
    simp only [Except.ok.injEq]
    split
    · next hs =>
      rw [map_eq_ok_iff]
      constructor
      · rintro ⟨v, hv, rfl⟩
        exact ⟨rfl, fun _ => ⟨v, hv⟩⟩
      · rintro ⟨rfl, hv⟩
        obtain ⟨v, hv⟩ := hv hs
        exact ⟨v, hv, rfl⟩
    · next hs => simp [hs]

theorem Pass.watched_of_not_shows {l : Line} (h : p.shows l = false) (s : σ) (n : Nat) :
    p.watched s n l = p.step s n l := by
  unfold watched
  cases p.step s n l <;> simp [h]

/-- Nothing is shown after the frame of a program. -/
theorem showsAfter_eq_false {layout : Layout} (table : OpTable) {l : Line}
    (h : l.mnemonic = "START" ∨ l.mnemonic = "END") :
    showsAfter layout table l = false := by
  unfold showsAfter
  rcases h with h | h
  · rw [(Statement.ofMnemonic_eq_start_iff _ _ _).2 h]
  · rw [(Statement.ofMnemonic_eq_finish_iff _ _ _).2 h]

theorem Pass.exists_getLast?_of_fault (s : σ) (n : Nat) (ls : List Line)
    (h : (p.trace s n ls).fault = none) :
    ∃ v, (p.trace s n ls).snapshots.getLast? = some v := by
  have hclose : ∀ s : σ, (Trace.cons (p.view (p.close s)) .nothing).fault = none →
      ∃ v, (Trace.cons (p.view (p.close s)) .nothing).snapshots.getLast? = some v := by
    intro s
    cases p.view (p.close s) <;> simp [Trace.cons, Trace.nothing, Trace.failed]
  induction ls generalizing s n with
  | nil => exact hclose s h
  | cons l ls ih =>
    rw [Pass.trace] at h ⊢
    split at h
    · next he => rw [if_pos he]; exact hclose s h
    · next he =>
      rw [if_neg he]
      cases hs : p.step s n l with
      | error x => simp [hs, Trace.failed] at h
      | ok s' =>
        simp only [hs] at h ⊢
        split at h
        · next hl =>
          rw [if_pos hl]
          cases hv : p.view s' with
          | error x => simp [hv, Trace.cons, Trace.failed] at h
          | ok v => simp [Trace.cons, List.getLast?_cons]
        · next hl => rw [if_neg hl]; exact ih s' (n + 1) h

/-- A trace without a fault ends in what is shown of the closed state after a watched run. -/
theorem Pass.trace_getLast?_eq_iff (s : σ) (n : Nat) (ls : List Line) (v : Snapshot) :
    ((p.trace s n ls).fault = none ∧ (p.trace s n ls).snapshots.getLast? = some v) ↔
      ∃ s', runLines p.watched p.ended s n ls = .ok s' ∧ p.view (p.close s') = .ok v := by
  have hclose : ∀ s : σ, ((Trace.cons (p.view (p.close s)) .nothing).fault = none ∧
      (Trace.cons (p.view (p.close s)) .nothing).snapshots.getLast? = some v) ↔
      p.view (p.close s) = .ok v := by
    intro s
    cases p.view (p.close s) <;> simp [Trace.cons, Trace.nothing, Trace.failed]
  induction ls generalizing s n with
  | nil => simpa [Pass.trace, runLines] using hclose s
  | cons l ls ih =>
    rw [Pass.trace, runLines]
    split
    · simpa using hclose s
    · rw [watched]
      cases p.step s n l with
      | error x => simp [Trace.failed]
      | ok s' =>
        simp only
        split
        · cases p.view s' with
          | error x => simp [Trace.cons, Trace.failed]
          | ok w =>
            simp only [map_ok, ← ih s' (n + 1), Trace.cons]
            refine and_congr_right fun hf => ?_
            obtain ⟨u, hu⟩ := p.exists_getLast?_of_fault s' (n + 1) ls hf
            simp [List.getLast?_cons, hu]
        · exact ih s' (n + 1)

theorem Pass.step_of_watched {s s' : σ} {n : Nat} {l : Line} (h : p.watched s n l = .ok s') :
    p.step s n l = .ok s' :=
  ((p.watched_eq_ok_iff s n l s').1 h).1

/-- A pass can be cut at the end directive if its steps can. -/
theorem Pass.stepping_watched {started : σ → Bool} {clean : σ → Prop}
    (h : Stepping p.step started p.ended clean) :
    Stepping p.watched started p.ended clean where
  clean_of_step hs := h.clean_of_step (p.step_of_watched hs)
  start_iff hs := h.start_iff (p.step_of_watched hs)
  started_of_step hs := h.started_of_step (p.step_of_watched hs)
  ended_iff he hs := h.ended_iff he (p.step_of_watched hs)

theorem mem_snapshots_cons {shown : Except Fault Snapshot} {t : Trace} {w : Snapshot}
    (h : w ∈ (Trace.cons shown t).snapshots) : shown = .ok w ∨ w ∈ t.snapshots := by
  cases shown with
  | error x => cases h
  | ok v =>
    rcases List.mem_cons.1 h with rfl | h
    · exact .inl rfl
    · exact .inr h

end OnePass
end Assembler
