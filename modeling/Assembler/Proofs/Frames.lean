import Assembler.OnePass.Trace
import Assembler.Proofs.FlatListing
import Assembler.Proofs.Runs

/-! # What all passes keep

The states of the three one-pass assemblers share a frame.  Here is what a start directive makes of
it, what the names of a line add to the tables, and what a line keeps if its parts do. -/

namespace Assembler
set_option autoImplicit false

/-! ## Diagnostics of a line -/

def Adds (n : Nat) (xs ys : List Diagnostic) : Prop := ∃ ps, ys = xs ++ (Site.line n).report ps

theorem Adds.refl (n : Nat) (xs : List Diagnostic) : Adds n xs xs := ⟨[], by simp⟩

theorem Adds.report (n : Nat) (xs : List Diagnostic) (ps : List Problem) :
    Adds n xs (xs ++ (Site.line n).report ps) :=
  ⟨ps, rfl⟩

theorem Adds.trans {n : Nat} {xs ys zs : List Diagnostic} (h : Adds n xs ys) (h' : Adds n ys zs) :
    Adds n xs zs := by
  obtain ⟨ps, rfl⟩ := h
  obtain ⟨qs, rfl⟩ := h'
  exact ⟨ps ++ qs, by simp [Site.report]⟩

namespace OnePass

variable {σ : Type} {layout : Layout} {l : Line}

/-! ## Start directives -/

namespace Frame

variable {f : Frame}

theorem load_tell (f : Frame) (site : Site) (ps : List Problem) (l : Line) :
    (f.tell site ps).load l = (f.load l).tell site ps := by
  unfold load
  cases onlyNumber? l.operands <;> rfl

@[simp] theorem found_load (f : Frame) (l : Line) : (f.load l).found = f.found := by
  unfold load
  cases onlyNumber? l.operands <;> rfl

@[simp] theorem ended_load (f : Frame) (l : Line) : (f.load l).ended = f.ended := by
  unfold load
  cases onlyNumber? l.operands <;> rfl

theorem load_initial (layout : Layout) (l : Line) :
    (initial layout.origin).load l = initial (layout.load l) := by
  unfold load Layout.load
  cases onlyNumber? l.operands <;> rfl

/-- A start directive that nothing is wrong with: it is the first one, names the program and gives a
load address of the layout, or none. -/
structure Commences (f : Frame) (layout : Layout) (l : Line) : Prop where
  clean : f.found = []
  first : f.started = false
  operands : isOptionalNumber l.operands = true
  load : InMemory (f.load l).counter
  load_layout : layout.loadProblems (f.load l).counter = []
  label : l.name?.isSome = true

theorem commence_eq (f : Frame) (layout : Layout) (site : Int → Site) (l : Line) :
    f.commence layout site l =
      { f.load l with
        started := true
        found := (f.commence layout site l).found } := by
  simp only [commence, load_tell]
  rfl

@[simp] theorem ended_commence (f : Frame) (layout : Layout) (site : Int → Site) (l : Line) :
    (f.commence layout site l).ended = f.ended := by
  rw [commence_eq]
  exact f.ended_load l

theorem adds_commence (f : Frame) (layout : Layout) (n : Nat) (l : Line) :
    Adds n f.found (f.commence layout (fun _ => .line n) l).found := by
  simp only [commence, load_tell]
  rw [← f.found_load l]
  exact (Adds.report n _ _).trans (.report n _ _)

/-- A start directive leaves no problem if and only if nothing is wrong with it. -/
theorem found_commence_eq_nil_iff (site : Int → Site) :
    (f.commence layout site l).found = [] ↔ f.Commences layout l := by
  have hname : l.name?.isNone = false ↔ l.name?.isSome = true := by cases l.name? <;> simp
  simp only [commence, load_tell]
  simp only [tell, found_load, startProblems, List.append_eq_nil_iff, Site.report_eq_nil_iff,
    rangeProblems_eq_nil_iff, ite_eq_left_iff, ite_eq_right_iff, List.cons_ne_nil, imp_false,
    Bool.not_eq_true, Bool.not_eq_false, hname]
  constructor
  · rintro ⟨⟨hf, hst, hop⟩, ⟨hm, hlo⟩, hl⟩
    exact ⟨hf, hst, hop, hm, hlo, hl⟩
  · rintro ⟨hf, hst, hop, hm, hlo, hl⟩
    exact ⟨⟨hf, hst, hop⟩, ⟨hm, hlo⟩, hl⟩

theorem Commences.commence (h : f.Commences layout l) (site : Int → Site) :
    f.commence layout site l = { f.load l with started := true } := by
  rw [commence_eq, (found_commence_eq_nil_iff site).2 h, ← h.clean, ← f.found_load l]

theorem commences_initial_iff (layout : Layout) : (initial layout.origin).Commences layout l ↔
    isOptionalNumber l.operands = true ∧ l.name?.isSome = true ∧ InMemory (layout.load l) ∧
      layout.loadProblems (layout.load l) = [] := by
  have hload : ((initial layout.origin).load l).counter = layout.load l := by
    rw [load_initial]
    rfl
  rw [← hload]
  constructor
  · intro h
    exact ⟨h.operands, h.label, h.load, h.load_layout⟩
  · rintro ⟨hop, hname, hm, hlayout⟩
    exact ⟨rfl, rfl, hop, hm, hlayout, hname⟩

end Frame

/-! ## Names that wait -/

variable {place : Option Nat} {names : OrderedMap String (Option Int)} {waiting : Waiting}

theorem awaitAll_single (x : String) :
    awaitAll place names waiting [x] =
      if isOpen names x then (names.insert x none, waiting.add x place) else (names, waiting) := by
  rw [awaitAll]
  split <;> rfl

theorem keys_awaitAll (xs : List String) :
    names.keys <+: (awaitAll place names waiting xs).1.keys := by
  induction xs generalizing names waiting with
  | nil => exact List.prefix_rfl
  | cons x xs ih =>
    rw [awaitAll]
    split
    · exact (names.keys_prefix_insert x none).trans ih
    · exact ih

theorem awaitedName?_eq_none {o : Operand} (h : o.referredName? = none) :
    awaitedName? layout o = none := by
  unfold awaitedName?
  split
  · rfl
  · exact h

namespace FlatFrame

theorem await_eq_self (f : FlatFrame) (layout : Layout) (count : Nat)
    (h : ∀ o ∈ l.operands, o.referredName? = none) :
    f.await layout count l = f := by
  have hnames : l.operands.filterMap (awaitedName? layout) = [] :=
    List.filterMap_eq_nil_iff.2 fun o ho => awaitedName?_eq_none (h o ho)
  rw [await, hnames]
  rfl

theorem await_single (f : FlatFrame) (layout : Layout) (count : Nat) {o : Operand} {x : String}
    (hl : l.operands = [o]) (hx : awaitedName? layout o = some x) :
    f.await layout count l =
      if isOpen f.names x then
        { f with names := f.names.insert x none, waiting := f.waiting.add x (lastPlace count) }
      else f := by
  rw [await, hl, List.filterMap_cons_some hx, List.filterMap_nil, awaitAll_single]
  split <;> rfl

/-- Names stay in front of new ones, and what is found wrong is found at a line. -/
structure Grows (n : Nat) (f f' : FlatFrame) : Prop where
  names : f.names.keys <+: f'.names.keys
  found : Adds n f.found f'.found

theorem Grows.refl (n : Nat) (f : FlatFrame) : f.Grows n f := ⟨List.prefix_rfl, .refl n _⟩

theorem Grows.trans {n : Nat} {f f' f'' : FlatFrame} (h : f.Grows n f') (h' : f'.Grows n f'') :
    f.Grows n f'' :=
  ⟨h.names.trans h'.names, h.found.trans h'.found⟩

theorem grows_await (f : FlatFrame) (n : Nat) (layout : Layout) (count : Nat) (l : Line) :
    f.Grows n (f.await layout count l) := ⟨keys_awaitAll _, .refl n _⟩

/-- What noting the label of a line does: it reports at the line, also that no start directive has
been met, and leaves the names in front of a new one. -/
structure Notes (n : Nat) (f f' : FlatFrame) : Prop where
  frame : ∃ ps, f'.toFrame = f.tell (.line n) ps
  begun : f.started = false → f'.found ≠ []
  names : f.names.keys <+: f'.names.keys

theorem Notes.grows {n : Nat} {f f' : FlatFrame} (h : f.Notes n f') : f.Grows n f' := by
  obtain ⟨ps, hframe⟩ := h.frame
  refine ⟨h.names, ?_⟩
  rw [hframe]
  exact .report n _ ps

theorem Notes.clean {n : Nat} {f f' : FlatFrame} (h : f.Notes n f') (hf : f'.found = []) :
    f.found = [] ∧ f.started = true ∧ f'.started = true ∧ f'.ended = f.ended := by
  obtain ⟨ps, hframe⟩ := h.frame
  have hstarted : f.started = true := by
    by_contra hno
    exact h.begun (Bool.eq_false_iff.2 hno) hf
  rw [hframe] at hf ⊢
  exact ⟨(List.append_eq_nil_iff.1 hf).1, hstarted, hstarted, rfl⟩

end FlatFrame

/-! ## Lines in their parts -/

section

variable {startLine : σ → σ} {noteLabel : σ → Except Fault σ}
  {bodyLine : Statement → σ → Except Fault σ} {stmt : Statement} {s s' : σ}

theorem takeIn_of_ne_start (hstmt : stmt ≠ .start) (s : σ) :
    takeIn startLine noteLabel bodyLine stmt s = (noteLabel s).bind (bodyLine stmt) := by
  cases stmt <;> first | exact absurd rfl hstmt | (unfold takeIn; cases noteLabel s <;> rfl)

/-- A line keeps what its parts keep. -/
theorem rel_of_takeIn {R : σ → σ → Prop} (trans : ∀ {s₁ s₂ s₃}, R s₁ s₂ → R s₂ s₃ → R s₁ s₃)
    (hstart : R s (startLine s)) (hlabel : ∀ {s'}, noteLabel s = .ok s' → R s s')
    (hbody : ∀ {s₁ s'}, bodyLine stmt s₁ = .ok s' → R s₁ s')
    (h : takeIn startLine noteLabel bodyLine stmt s = .ok s') :
    R s s' := by
  by_cases hstmt : stmt = .start
  · subst hstmt
    obtain rfl := Except.ok.inj h
    exact hstart
  · rw [takeIn_of_ne_start hstmt] at h
    cases hn : noteLabel s with
    | error x => rw [hn] at h; cases h
    | ok s₁ =>
      rw [hn] at h
      exact trans (hlabel hn) (hbody h)

end

end OnePass

/-- A step is known by what it makes of a frame: start directives commence it. -/
theorem Stepping.of_frame {σ : Type} {step : σ → Nat → Line → Except Fault σ}
    (frame : σ → OnePass.Frame) (layout : Layout)
    (hstart : ∀ {s n l s'}, l.mnemonic = "START" → step s n l = .ok s' →
      ∃ site, frame s' = (frame s).commence layout site l)
    (hline : ∀ {s n l s'}, l.mnemonic ≠ "START" → step s n l = .ok s' → (frame s').found = [] →
      (frame s).found = [] ∧ (frame s).started = true ∧ (frame s').started = true ∧
        ((frame s).ended = false → ((frame s').ended = true ↔ l.mnemonic = "END"))) :
    Stepping step (fun s => (frame s).started) (fun s => (frame s).ended) fun s =>
      (frame s).found = [] := by
  refine .of_lines (fun hl h hf => ?_) hline
  obtain ⟨site, hs'⟩ := hstart hl h
  have hc := (OnePass.Frame.found_commence_eq_nil_iff site).1 (hs' ▸ hf)
  rw [hs']
  exact ⟨hc.clean, hc.first, by rw [hc.commence], OnePass.Frame.ended_commence ..⟩

/-- A step in parts is known by what its parts make of a frame. -/
theorem Stepping.of_takeIn {σ : Type} (frame : σ → OnePass.Frame) (layout : Layout)
    (table : OpTable) {startLine : σ → Nat → Line → σ} {noteLabel : σ → Nat → Line → Except Fault σ}
    {bodyLine : Statement → σ → Nat → Line → Except Fault σ}
    (hstart : ∀ s n l, frame (startLine s n l) = (frame s).commence layout (fun _ => .line n) l)
    (hlabel : ∀ {s n l s'}, noteLabel s n l = .ok s' → (frame s').found = [] →
      (frame s).found = [] ∧ (frame s).started = true ∧ (frame s').started = true ∧
      (frame s').ended = (frame s).ended)
    (hbody : ∀ {stmt s n l s'}, bodyLine stmt s n l = .ok s' → (frame s').found = [] →
      (frame s).found = [] ∧ (frame s').started = (frame s).started ∧
        (stmt ≠ .finish → (frame s').ended = (frame s).ended) ∧
        (stmt = .finish → (frame s').ended = true)) :
    Stepping
      (fun s n l => OnePass.takeIn (startLine · n l) (noteLabel · n l) (bodyLine · · n l)
        (Statement.ofMnemonic layout table l.mnemonic) s)
      (fun s => (frame s).started) (fun s => (frame s).ended) fun s => (frame s).found = [] := by
  refine .of_frame frame layout (fun {s n l s'} hl h => ?_) fun {s n l s'} hl h hf => ?_
  · rw [(Statement.ofMnemonic_eq_start_iff _ _ _).2 hl] at h
    obtain rfl := Except.ok.inj h
    exact ⟨_, hstart s n l⟩
  · rw [OnePass.takeIn_of_ne_start (mt (Statement.ofMnemonic_eq_start_iff _ _ _).1 hl)] at h
    cases hn : noteLabel s n l with
    | error x => rw [hn] at h; cases h
    | ok s₁ =>
      rw [hn] at h
      obtain ⟨hf₁, hstarted, hkeep, hend⟩ := hbody h hf
      obtain ⟨hc, hs, hs', hended⟩ := hlabel hn hf₁
      rw [← Statement.ofMnemonic_eq_finish_iff layout table]
      refine ⟨hc, hs, hstarted.trans hs', fun he => ⟨fun he' => ?_, hend⟩⟩
      by_contra hne
      rw [hkeep hne, hended, he] at he'
      cases he'

end Assembler
