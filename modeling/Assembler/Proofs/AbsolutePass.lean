import Assembler.OnePass.Absolute
import Assembler.Proofs.Frames
import Assembler.Proofs.Records
import Assembler.Proofs.Waiting

/-! # Absolute programs in one pass

A run of the one-pass assembler keeps an invariant, `Stage`: the records are those of the lines
placed so far, read from the labels met so far, and what waits is what refers to other names.  Hence
the pass accepts exactly the programs that two passes accept. -/

namespace Assembler.OnePass.Absolute
open Assembler
set_option autoImplicit false

/-- A record of a placed line as far as the labels in it are known. -/
def Written (table : OpTable) (ρ : String → Option Int) (p : Row × Int) (r : ObjectRecord) : Prop :=
  ∃ f, r = recordOf .absolute table p f ∧ SameDigits f ((fieldOf .absolute table ρ p).getD "")

/-- The pass after lines that nothing is wrong with: they are placed as `ps`, the next one stands at
`a`, and the labels met are `ρ`. -/
structure Stage (table : OpTable) (use : NameUse) (first : Line) (ps : List (Row × Int)) (a : Int)
    (ρ : String → Option Int) (s : State) : Prop where
  counter : s.counter = a
  origin : s.origin = Layout.absolute.load first
  visited : s.visited = Layout.absolute.load first :: ps.map fun p => p.1.address + p.2
  started : s.started = true
  found : s.found = []
  ledger : Ledger s.names s.waiting ρ ps
  records : ∃ rs, s.records = .header first.label (Layout.absolute.load first) none :: rs ∧
    List.Forall₂ (Written table ρ) ps rs
  fits : ∀ p ∈ ps, p.1.line.Fits .absolute table use p.1.address
  positive : 0 < a
  labels_positive : ∀ x b, ρ x = some b → 0 < b

variable {table : OpTable} {use : NameUse} {first : Line} {ps : List (Row × Int)} {a : Int}
  {ρ : String → Option Int} {s s' : State} {l : Line}

namespace State

/-! ## What single steps leave -/

@[simp] theorem waitForAll_found (s : State) (l : Line) : (s.waitForAll l).found = s.found := rfl

theorem fillWaiting_eq {x : String} (h : s.fillWaiting x = .ok s') :
    ∃ waiting records, s' = { s with waiting, records } := by
  unfold fillWaiting at h
  split at h
  · cases h; exact ⟨_, _, rfl⟩
  · rw [map_eq_ok_iff] at h
    obtain ⟨rs, -, rfl⟩ := h
    exact ⟨_, _, rfl⟩

/-- Noting a label reports, notes and fills, and does nothing else. -/
theorem noteLabel_eq {n : Nat} (h : s.noteLabel n l = .ok s') :
    ∃ qs names waiting records, s.names.keys <+: names.keys ∧
      s' = { s.report n qs with names, waiting, records } := by
  unfold noteLabel at h
  split at h
  · cases h
    exact ⟨[], s.names, s.waiting, s.records, List.prefix_rfl, by simp [report]⟩
  · split at h
    · cases h
      exact ⟨_, _, _, _, List.prefix_rfl, rfl⟩
    · obtain ⟨waiting, records, rfl⟩ := fillWaiting_eq h
      exact ⟨_, _, _, _, s.names.keys_prefix_insert _ _, rfl⟩

theorem storageLine_clean_iff (kind : Storage) (n : Nat) (l : Line) :
    (s.storageLine kind n l = .ok s' ∧ s'.found = []) ↔
      s.found = [] ∧ (∃ al, kind.allot s.counter l.operands = .ok al ∧ al.problems = []) ∧
        s' = (s.add
          (Assembler.storageRecord s.counter (kind.extent l.operands)
            (kind.digits? l.operands))).moveTo (s.counter + kind.extent l.operands) := by
  refine Storage.clean_iff (fun s : State => s.found) (fun _ => rfl)
    (fun _ _ => rfl) fun al hal => ?_
  obtain ⟨hsize, hdigits⟩ := Storage.allot_eq hal
  have hrecord : storageRecord al s.counter =
      Assembler.storageRecord s.counter (kind.extent l.operands) (kind.digits? l.operands) := by
    rw [← hsize, ← hdigits]
    unfold storageRecord Assembler.storageRecord
    cases al.digits <;> rfl
  simp [report, hsize, hrecord, moveTo, add]

theorem commandLine_clean_iff (op : Operation) (n : Nat) (l : Line) :
    (s.commandLine use op n l = .ok s' ∧ s'.found = []) ↔
      s.found = [] ∧ (commandProblems .absolute s.counter l.mnemonic op.size l.operands = .ok [] ∧
        nameUseProblems use l.operands = []) ∧
        ∃ f, Field.inOnePass dialect (s.scope (s.counter + op.size)) op.size l.operands = .ok f ∧
          s' = (s.add
            (.code s.counter op.size (codeByte op.opcode l.operands) (Field.shown f))).moveTo
              (s.counter + op.size) := by
  unfold commandLine
  cases h : commandProblems .absolute s.counter l.mnemonic op.size l.operands with
  | error x => simp [h]
  | ok qs =>
    simp only [h, map_eq_ok_iff, Except.ok.injEq]
    constructor
    · rintro ⟨⟨f, hf, rfl⟩, hc⟩
      simp only [moveTo, report, add, List.append_eq_nil_iff, Site.report_eq_nil_iff] at hc
      obtain ⟨hc, rfl, hu⟩ := hc
      exact ⟨hc, ⟨rfl, hu⟩, f, hf, by simp [report, hu, moveTo, add]⟩
    · rintro ⟨hc, ⟨rfl, hu⟩, f, hf, rfl⟩
      exact ⟨⟨f, hf, by simp [report, hu, moveTo, add]⟩, hc⟩

end State

/-! ## Labels -/

theorem direct_of_reference (ht : table.Sized .absolute) (hfit : l.Fits .absolute table use a)
    {x : String} (h : referenceOf l.operands = some x) :
    ∃ op, Statement.ofMnemonic .absolute table l.mnemonic = .command op ∧ op.size = 4 ∧
      l.operands = [.direct x] := by
  obtain ⟨op, hop, ⟨hd, h4⟩ | ⟨-, h3⟩⟩ := command_of_reference ht hfit h
  · exact ⟨op, hop, h4, hd⟩
  · have hsize := ht.mem_commandSizes hop
    simp [h3, Layout.commandSizes, absoluteSizes] at hsize

theorem Written.labelled (ht : table.Sized .absolute) {x : String} (hx : ρ x = none) (b : Int)
    {p : Row × Int} (hfit : p.1.line.Fits .absolute table use p.1.address) {r : ObjectRecord}
    (h : Written table ρ p r) :
    Written table (fun y => if x = y then some b else ρ y) p
      (if referenceOf p.1.line.operands = some x then appendAddress b r else r) := by
  obtain ⟨f, rfl, hf⟩ := h
  split
  · next hr =>
    obtain ⟨op, hop, h4, hdir⟩ := direct_of_reference ht hfit hr
    have hfield :
        ∀ ρ' : String → Option Int,
          fieldOf .absolute table ρ' p = (ρ' x).map (Text.hex .upper 6) := by
      intro ρ'
      simp only [fieldOf, hop, hdir, h4, operandDigits?, operandValues?, Operand.value?,
        Reading.ofAddresses]
      cases ρ' x <;> simp [FieldWidth.ofSize, FieldWidth.digits, FieldWidth.format]
    obtain rfl : f = "" := by
      rw [hfield, hx] at hf
      simpa [SameDigits] using hf
    refine ⟨Text.hex .lower 6 b, ?_, ?_⟩
    · simp [recordOf, hop, appendAddress]
    · simpa [hfield] using SameDigits.hex .lower .upper 6 b
  · next hr =>
    refine ⟨f, rfl, ?_⟩
    rwa [← fieldOf_congr ht hfit]
    intro y hy
    have hne : x ≠ y := fun h => hr (h ▸ hy)
    simp [hne]

/-- Filling the places of the references to a name, and noting its address. -/
theorem State.fillWaiting_of_accounts {places : String → List (Option Nat)}
    (h : Accounts s.names s.waiting ρ places) {x : String} (hx : ρ x = none)
    {rs : List ObjectRecord}
    (hrs : changeAll (fun r => .ok (appendAddress s.counter r)) (places x) s.records = .ok rs) :
    ∃ names waiting,
      Accounts names waiting (fun y => if x = y then some s.counter else ρ y) places ∧
      State.fillWaiting { s with names := s.names.insert x (some s.counter) } x =
        .ok { s with names, waiting, records := rs } := by
  have hwaiting := h.waiting_eq hx
  unfold State.fillWaiting
  simp only [hwaiting]
  by_cases hp : places x = []
  · rw [if_pos hp] at hwaiting ⊢
    rw [hp, changeAll, Except.ok.injEq] at hrs
    exact ⟨_, _, h.note_of_not_waiting hwaiting _, by rw [← hrs]⟩
  · rw [if_neg hp]
    simp only [hrs, map_ok]
    exact ⟨_, _, h.note _, rfl⟩

/-- Filling what waits for a label gives the records as read from one more label. -/
theorem Stage.fillWaiting (ht : table.Sized .absolute) (h : Stage table use first ps a ρ s)
    {x : String} (hx : ρ x = none) :
    ∃ s', State.fillWaiting { s with names := s.names.insert x (some s.counter) } x = .ok s' ∧
      Stage table use first ps a (fun y => if x = y then some a else ρ y) s' := by
  obtain rfl := h.counter
  obtain ⟨rs, hrs, hwritten⟩ := h.records
  have hpositive : ∀ y b, (if x = y then some s.counter else ρ y) = some b → 0 < b := by
    intro y b hy
    split at hy
    · cases hy; exact h.positive
    · exact h.labels_positive y b hy
  obtain ⟨rs', hrs', hwritten'⟩ :
      ∃ rs', changeAll (fun r => .ok (appendAddress s.counter r)) (placesOf x 1 ps) s.records =
        .ok (.header first.label (Layout.absolute.load first) none :: rs') ∧
      List.Forall₂ (Written table fun y => if x = y then some s.counter else ρ y) ps rs' := by
    rw [hrs]
    refine changeAll_placesWhere (fun p hp r hr href => ⟨_, rfl, ?_⟩) (fun p hp r hr href => ?_)
      [_] hwritten
    · simpa [href] using hr.labelled ht hx s.counter (h.fits p hp)
    · simpa [href] using hr.labelled ht hx s.counter (h.fits p hp)
  obtain ⟨names, waiting, hledger, hfill⟩ := State.fillWaiting_of_accounts h.ledger.accounts hx hrs'
  exact ⟨_, hfill, { h with
    ledger := hledger
    records := ⟨rs', rfl, hwritten'⟩
    labels_positive := hpositive }⟩

theorem Stage.noteLabel (ht : table.Sized .absolute) (h : Stage table use first ps a ρ s) (n : Nat)
    (hnew : Fresh ρ l) (hfit : l.LabelFits a) :
    ∃ s', s.noteLabel n l = .ok s' ∧ Stage table use first ps a (labelled ρ a l) s' := by
  unfold State.noteLabel
  cases hl : l.name? with
  | none => exact ⟨s, rfl, by rwa [labelled_of_none hl]⟩
  | some x =>
    have hx : ρ x = none := hnew x hl
    have hm : InMemory s.counter := by rw [h.counter]; exact hfit (by simp [hl])
    have htaken : isTaken s.names x = false := by simp [h.ledger.isTaken_eq, hx]
    rw [labelled_of_some hl]
    simpa [htaken, State.report, (rangeProblems_eq_nil_iff _ _).2 hm] using h.fillWaiting ht hx

/-- A label that is left without a problem is new and stands in memory. -/
theorem State.of_noteLabel {places : String → List (Option Nat)}
    (h : Accounts s.names s.waiting ρ places) (hpos : ∀ x b, ρ x = some b → 0 < b) {n : Nat}
    (hs : s.noteLabel n l = .ok s') (hf : s'.found = []) :
    Fresh ρ l ∧ l.LabelFits s.counter := by
  unfold State.noteLabel at hs
  cases hl : l.name? with
  | none => exact ⟨fun x hx => by simp [hl] at hx, fun hx => by simp [hl] at hx⟩
  | some x =>
    simp only [hl, h.isTaken_eq] at hs
    split at hs
    · cases hs
      simp [State.report] at hf
    · next htaken =>
      obtain ⟨waiting, records, rfl⟩ := State.fillWaiting_eq hs
      simp only [State.report, List.append_eq_nil_iff, Site.report_eq_nil_iff,
        rangeProblems_eq_nil_iff] at hf
      refine ⟨fun y hy => ?_, fun _ => hf.2⟩
      obtain rfl : x = y := by simpa [hl] using hy
      cases hx : ρ x with
      | none => rfl
      | some b =>
        have := hpos x b hx
        simp [hx] at htaken
        omega

theorem Stage.of_noteLabel (h : Stage table use first ps a ρ s) {n : Nat}
    (hs : s.noteLabel n l = .ok s') (hf : s'.found = []) : Fresh ρ l ∧ l.LabelFits a := by
  obtain rfl := h.counter
  exact State.of_noteLabel h.ledger.accounts h.labels_positive hs hf

/-! ## Lines of the body -/

theorem State.waitForAll_eq_self (s : State) (h : ∀ o ∈ l.operands, o.referredName? = none) :
    s.waitForAll l = s := by
  rw [State.waitForAll, s.await_eq_self .absolute _ h]

/-- A line adds its record, moves the counter and lets its reference wait. -/
theorem Stage.push (ht : table.Sized .absolute) (h : Stage table use first ps a ρ s)
    (hfit : l.Fits .absolute table use a) {r : ObjectRecord}
    (hr : Written table ρ (⟨a, l, none⟩, l.extent .absolute table) r) :
    Stage table use first (ps ++ [(⟨a, l, none⟩, l.extent .absolute table)])
      (a + l.extent .absolute table) ρ
        (((s.add r).moveTo (a + l.extent .absolute table)).waitForAll l) := by
  obtain ⟨rs, hrs, hwritten⟩ := h.records
  have hext := hfit.extent_nonneg ht
  have hpos := h.positive
  have hstage :
      ∀ names waiting, Ledger names waiting ρ (ps ++ [(⟨a, l, none⟩, l.extent .absolute table)]) →
      Stage table use first (ps ++ [(⟨a, l, none⟩, l.extent .absolute table)])
        (a + l.extent .absolute table) ρ
          { (s.add r).moveTo (a + l.extent .absolute table) with names, waiting } := by
    intro names waiting hledger
    refine ⟨rfl, h.origin, ?_, h.started, h.found, hledger, ⟨rs ++ [r], ?_, ?_⟩, ?_, by omega,
      h.labels_positive⟩
    · simp [State.moveTo, State.add, h.visited]
    · simp [State.moveTo, State.add, hrs]
    · exact List.rel_append hwritten (.cons hr .nil)
    · intro p hp
      rcases List.mem_append.1 hp with hp | hp
      · exact h.fits p hp
      · rw [List.mem_singleton.1 hp]
        exact hfit
  cases hx : referenceOf l.operands with
  | none =>
    rw [State.waitForAll_eq_self _ (referredName?_eq_none ht hfit hx)]
    exact hstage _ _ (h.ledger.skip (by simp [hx]))
  | some x =>
    obtain ⟨op, -, -, hdir⟩ := direct_of_reference ht hfit hx
    have hlength :
        ((s.add r).moveTo (a + l.extent .absolute table)).records.length = ps.length + 2 := by
      simp [State.moveTo, State.add, hrs, hwritten.length_eq]
    have hopen : isOpen ((s.add r).moveTo (a + l.extent .absolute table)).names x = (ρ x).isNone :=
      h.ledger.isOpen_eq x
    rw [State.waitForAll, FlatFrame.await_single _ .absolute _ hdir rfl, hopen, hlength]
    cases hρ : ρ x with
    | none => exact hstage _ _ (h.ledger.await hx hρ)
    | some b => exact hstage _ _ (h.ledger.skip (by simp [hx, hρ]))

/-- The field of an admitted command is that of the labels met so far; there is one if its strings
have values. -/
theorem State.inOnePass_eq_ok_iff (hρ : addressIn s.names = ρ) {size : Int} {ops : List Operand}
    (hs : size ∈ Layout.absolute.commandSizes) (hadm : Admitted size ops) (next : Int)
    (f : Option String) :
    Field.inOnePass dialect (s.scope next) size ops = .ok f ↔
      (∀ o ∈ ops, o.Legible) ∧
      f = some ((operandDigits? (.ofAddresses ρ next) size ops).getD "") := by
  have hk := Scope.absolute_knows s.names next
  rw [hρ] at hk
  have hdigits :
      operandDigits? ⟨ρ, fun _ => none⟩ size ops =
        operandDigits? (.ofAddresses ρ next) size ops := by
    refine operandDigits?_congr hadm (fun _ _ => rfl) fun x hx => ?_
    subst hx
    cases hadm with
    | distance => simp [Layout.commandSizes, absoluteSizes] at hs
    | character _ hstr => cases hstr
    | text _ _ hstr => cases hstr
  have hinOne : Field.inOnePass dialect (s.scope next) size ops =
      Field.pending (some (.ofSize size ops.length)) (s.scope next) ops := by
    rw [← FieldWidth.ofSource?_admitted hadm]
    rfl
  rw [hinOne]
  by_cases hl : ∀ o ∈ ops, o.Legible
  · rw [State.scope, dialect, Field.pending_admitted hk hl (fun _ _ => rfl), hdigits]
    exact ⟨fun h => ⟨hl, (Except.ok.inj h).symm⟩, fun h => congrArg _ h.2.symm⟩
  · obtain ⟨x, hx⟩ := Field.pending_error (some (.ofSize size ops.length)) (s.scope next) hadm hl
    simp [hx, hl]

/-- A line of the body leaves no problem if and only if it fits and its strings have values; it then
gives the record of the labels met so far. -/
theorem Stage.bodyLine_clean_iff (ht : table.Sized .absolute) (h : Stage table use first ps a ρ s)
    (hl : l.mnemonic ≠ "START" ∧ l.mnemonic ≠ "END") (n : Nat) :
    (s.bodyLine use (Statement.ofMnemonic .absolute table l.mnemonic) n l = .ok s' ∧
      s'.found = []) ↔
      l.Fits .absolute table use a ∧ l.Legible .absolute table ∧
        ∃ r, r = recordOf .absolute table (⟨a, l, none⟩, l.extent .absolute table)
            ((fieldOf .absolute table ρ (⟨a, l, none⟩, l.extent .absolute table)).getD "") ∧
          s' = ((s.add r).moveTo (a + l.extent .absolute table)).waitForAll l := by
  obtain rfl := h.counter
  have hmap : ∀ x : Except Fault State, (x.map (·.waitForAll l) = .ok s' ∧ s'.found = []) ↔
      ∃ s₁, (x = .ok s₁ ∧ s₁.found = []) ∧ s' = s₁.waitForAll l := by
    intro x
    rw [map_eq_ok_iff]
    constructor
    · rintro ⟨⟨s₁, hx, rfl⟩, hf⟩
      exact ⟨s₁, ⟨hx, by simpa using hf⟩, rfl⟩
    · rintro ⟨s₁, ⟨hx, hf⟩, rfl⟩
      exact ⟨⟨s₁, hx, rfl⟩, by simpa using hf⟩
  unfold Line.Fits Line.Legible Line.extent fieldOf recordOf State.bodyLine
  generalize hst : Statement.ofMnemonic .absolute table l.mnemonic = st
  cases st with
  | start => exact absurd ((Statement.ofMnemonic_eq_start_iff _ _ _).1 hst) hl.1
  | finish => exact absurd ((Statement.ofMnemonic_eq_finish_iff _ _ _).1 hst) hl.2
  | storage kind =>
    simp only [hmap, State.storageLine_clean_iff, h.found, true_and, reduceCtorEq, false_implies,
      implies_true, exists_eq_left]
    constructor
    · rintro ⟨s₁, ⟨hal, rfl⟩, rfl⟩
      exact ⟨hal, rfl⟩
    · rintro ⟨hal, rfl⟩
      exact ⟨_, ⟨hal, rfl⟩, rfl⟩
  | command op =>
    simp only [hmap, State.commandLine_clean_iff, h.found, true_and, Statement.command.injEq,
      forall_eq', exists_eq_left]
    have hsize := ht.mem_commandSizes hst
    constructor
    · rintro ⟨s₁, ⟨hc, f, hf, rfl⟩, rfl⟩
      have hadm := ((commandProblems_eq_nil_iff hsize _ _ _).1 hc.1).1
      obtain ⟨hlegible, rfl⟩ :=
        (State.inOnePass_eq_ok_iff h.ledger.addressIn_eq hsize hadm _ _).1 hf
      exact ⟨hc, hlegible, rfl⟩
    · rintro ⟨hc, hlegible, rfl⟩
      have hadm := ((commandProblems_eq_nil_iff hsize _ _ _).1 hc.1).1
      exact ⟨_, ⟨hc, _,
        (State.inOnePass_eq_ok_iff h.ledger.addressIn_eq hsize hadm _ _).2 ⟨hlegible, rfl⟩,
        rfl⟩, rfl⟩
  | _ =>
    simp only [Except.ok.injEq, false_and, iff_false, not_and]
    rintro rfl
    simp [State.report]

theorem State.found_of_bodyLine {stmt : Statement} {n : Nat} (h : s.bodyLine use stmt n l = .ok s')
    (hf : s'.found = []) :
    s.found = [] := by
  unfold State.bodyLine at h
  split at h
  · cases h
    exact (List.append_eq_nil_iff.1 hf).1
  · obtain ⟨s₁, hs, rfl⟩ := (map_eq_ok_iff _ _ _).1 h
    exact ((State.storageLine_clean_iff _ n l).1 ⟨hs, by simpa using hf⟩).1
  · obtain ⟨s₁, hs, rfl⟩ := (map_eq_ok_iff _ _ _).1 h
    exact ((State.commandLine_clean_iff _ n l).1 ⟨hs, by simpa using hf⟩).1
  · cases h
    rw [State.waitForAll_found] at hf
    exact (List.append_eq_nil_iff.1 hf).1

theorem State.line_eq (hl : l.mnemonic ≠ "START") (n : Nat) :
    s.line table use n l =
      match (s.expectStarted n).noteLabel n l with
      | .error x => .error x
      | .ok s' => s'.bodyLine use (Statement.ofMnemonic .absolute table l.mnemonic) n l := by
  rw [State.line, takeIn_of_ne_start (mt (Statement.ofMnemonic_eq_start_iff _ _ _).1 hl)]
  cases (s.expectStarted n).noteLabel n l <;> rfl

theorem Stage.expectStarted (h : Stage table use first ps a ρ s) (n : Nat) :
    s.expectStarted n = s := if_pos h.started

/-- What a line that leaves no problem does: its label is met, and then the rest of it is taken
in. -/
theorem Stage.line_cases (ht : table.Sized .absolute) (h : Stage table use first ps a ρ s)
    (hl : l.mnemonic ≠ "START") {n : Nat} (hs : s.line table use n l = .ok s')
    (hf : s'.found = []) :
    Fresh ρ l ∧ l.LabelFits a ∧ ∃ s₁, Stage table use first ps a (labelled ρ a l) s₁ ∧
      s₁.bodyLine use (Statement.ofMnemonic .absolute table l.mnemonic) n l = .ok s' := by
  rw [State.line_eq hl, h.expectStarted] at hs
  cases hn : s.noteLabel n l with
  | error x => simp [hn] at hs
  | ok s₁ =>
    simp only [hn] at hs
    obtain ⟨hnew, hfit⟩ := h.of_noteLabel hn (State.found_of_bodyLine hs hf)
    obtain ⟨s₂, hn₂, hstage⟩ := h.noteLabel ht n hnew hfit
    obtain rfl : s₁ = s₂ := by simpa [hn] using hn₂
    exact ⟨hnew, hfit, s₁, hstage, hs⟩

theorem Stage.line_clean_iff (ht : table.Sized .absolute) (h : Stage table use first ps a ρ s)
    (hl : l.mnemonic ≠ "START" ∧ l.mnemonic ≠ "END") (n : Nat) :
    (∃ s', s.line table use n l = .ok s' ∧ s'.found = []) ↔
      l.FitsAt .absolute table use a ρ ∧ l.Legible .absolute table := by
  constructor
  · rintro ⟨s', hs, hf⟩
    obtain ⟨hnew, hlab, s₁, hstage, hbody⟩ := h.line_cases ht hl.1 hs hf
    obtain ⟨hfit, hlegible, -⟩ := (hstage.bodyLine_clean_iff ht hl n).1 ⟨hbody, hf⟩
    exact ⟨⟨hnew, hlab, hfit⟩, hlegible⟩
  · rintro ⟨⟨hnew, hlab, hfit⟩, hlegible⟩
    obtain ⟨s₁, hn, hstage⟩ := h.noteLabel ht n hnew hlab
    obtain ⟨hbody, hf⟩ := (hstage.bodyLine_clean_iff ht hl n).2 ⟨hfit, hlegible, _, rfl, rfl⟩
    refine ⟨_, ?_, hf⟩
    rw [State.line_eq hl.1, h.expectStarted, hn]
    exact hbody

/-- The invariant carries over from line to line. -/
theorem Stage.line (ht : table.Sized .absolute) (h : Stage table use first ps a ρ s)
    (hl : l.mnemonic ≠ "START" ∧ l.mnemonic ≠ "END") {n : Nat} (hs : s.line table use n l = .ok s')
    (hf : s'.found = []) :
    Stage table use first (ps ++ [(⟨a, l, none⟩, l.extent .absolute table)])
      (a + l.extent .absolute table) (labelled ρ a l) s' := by
  obtain ⟨-, -, s₁, hstage, hbody⟩ := h.line_cases ht hl.1 hs hf
  obtain ⟨hfit, -, r, rfl, rfl⟩ := (hstage.bodyLine_clean_iff ht hl n).1 ⟨hbody, hf⟩
  exact hstage.push ht hfit ⟨_, rfl, rfl⟩

/-! ## Lines of any kind -/

namespace State

theorem notes_noteLabel {n : Nat} (h : (s.expectStarted n).noteLabel n l = .ok s') :
    s.Notes n s'.toFlatFrame := by
  by_cases hs : s.started = true
  · rw [expectStarted, if_pos hs] at h
    obtain ⟨qs, names, waiting, records, hkeys, rfl⟩ := noteLabel_eq h
    exact ⟨⟨qs, rfl⟩, by simp [hs], hkeys⟩
  · rw [expectStarted, if_neg hs] at h
    obtain ⟨qs, names, waiting, records, hkeys, rfl⟩ := noteLabel_eq h
    refine ⟨⟨.beforeStart :: qs, ?_⟩, by simp [report], hkeys⟩
    simp [Frame.tell, report, Site.report]

theorem grows_bodyLine {stmt : Statement} {n : Nat} (h : s.bodyLine use stmt n l = .ok s') :
    s.Grows n s'.toFlatFrame := by
  unfold bodyLine at h
  split at h
  · cases h
    exact ⟨List.prefix_rfl, .report _ _ _⟩
  · obtain ⟨s₁, hs₁, rfl⟩ := (map_eq_ok_iff _ _ _).1 h
    refine FlatFrame.Grows.trans ?_ (s₁.grows_await n _ _ l)
    unfold storageLine at hs₁
    split at hs₁
    · cases hs₁
      exact ⟨List.prefix_rfl, .report _ _ _⟩
    · obtain ⟨ps, -, rfl⟩ := (map_eq_ok_iff _ _ _).1 hs₁
      exact ⟨List.prefix_rfl, .report _ _ _⟩
  · obtain ⟨s₁, hs₁, rfl⟩ := (map_eq_ok_iff _ _ _).1 h
    refine FlatFrame.Grows.trans ?_ (s₁.grows_await n _ _ l)
    unfold commandLine at hs₁
    simp only at hs₁
    split at hs₁
    · cases hs₁
    · obtain ⟨field, -, rfl⟩ := (map_eq_ok_iff _ _ _).1 hs₁
      exact ⟨List.prefix_rfl, .report _ _ _⟩
  · cases h
    refine FlatFrame.Grows.trans ?_ (FlatFrame.grows_await _ n _ _ l)
    exact ⟨List.prefix_rfl, .report _ _ _⟩

theorem grows_line {n : Nat} (h : s.line table use n l = .ok s') : s.Grows n s'.toFlatFrame :=
  rel_of_takeIn (R := fun s s' : State => s.Grows n s'.toFlatFrame) .trans
    ⟨List.prefix_rfl, s.adds_commence _ n l⟩ (fun h => (notes_noteLabel h).grows) grows_bodyLine h

end State

/-! ## The frame of a program -/

namespace State

theorem line_start (hl : l.mnemonic = "START") (n : Nat) :
    s.line table use n l = .ok (s.startLine n l) := by
  rw [line, (Statement.ofMnemonic_eq_start_iff _ _ _).2 hl]
  rfl

/-- The state after a start directive that nothing is wrong with. -/
def opened (first : Line) : State :=
  ⟨⟨{ Frame.initial (Layout.absolute.load first) with started := true }, ∅, ∅⟩,
    [.header first.label (Layout.absolute.load first) none]⟩

theorem startLine_start (h : start.Commences .absolute first) (n : Nat) :
    start.startLine n first = opened first := by
  have hload : start.load first = .initial (Layout.absolute.load first) :=
    Frame.load_initial .absolute first
  rw [startLine, h.commence, hload]
  rfl

theorem frame_of_bodyLine {stmt : Statement} {n : Nat} (h : s.bodyLine use stmt n l = .ok s')
    (hf : s'.found = []) :
    s.found = [] ∧ s'.started = s.started ∧ (stmt ≠ .finish → s'.ended = s.ended) ∧
      (stmt = .finish → s'.ended = true) := by
  refine ⟨found_of_bodyLine h hf, ?_⟩
  unfold bodyLine at h
  split at h
  · cases h
    exact ⟨rfl, fun h => absurd rfl h, fun _ => rfl⟩
  · obtain ⟨s₁, hs, rfl⟩ := (map_eq_ok_iff _ _ _).1 h
    obtain ⟨-, -, rfl⟩ := (storageLine_clean_iff _ n l).1 ⟨hs, hf⟩
    exact ⟨rfl, fun _ => rfl, nofun⟩
  · obtain ⟨s₁, hs, rfl⟩ := (map_eq_ok_iff _ _ _).1 h
    obtain ⟨-, -, f, -, rfl⟩ := (commandLine_clean_iff _ n l).1 ⟨hs, hf⟩
    exact ⟨rfl, fun _ => rfl, nofun⟩
  · cases h
    simp [report] at hf

theorem stepping (table : OpTable) (use : NameUse) :
    Stepping (line table use) (·.started) (·.ended) (fun s => s.found = []) :=
  .of_takeIn (fun s : State => s.toFrame) .absolute table (fun _ _ _ => rfl)
    (fun h => (notes_noteLabel h).clean) frame_of_bodyLine

end State

/-! ## Whole programs -/

theorem load_pos (hm : InMemory (Layout.absolute.load first))
    (hl : Layout.absolute.loadProblems (Layout.absolute.load first) = []) :
    0 < Layout.absolute.load first := by
  have h0 := hm.1
  have hne : Layout.absolute.load first ≠ 0 := by simpa [Layout.loadProblems] using hl
  omega

/-- The invariant holds after a start directive that nothing is wrong with. -/
theorem Stage.start (hm : InMemory (Layout.absolute.load first))
    (hl : Layout.absolute.loadProblems (Layout.absolute.load first) = []) :
    Stage table use first [] (Layout.absolute.load first) (fun _ => none) (.opened first) :=
  ⟨rfl, rfl, rfl, rfl, rfl, .empty, ⟨[], rfl, .nil⟩, by simp, load_pos hm hl, by simp⟩

/-- The body of a program leaves no problem if and only if each line fits and has strings with
values. -/
theorem Stage.body (ht : table.Sized .absolute) (h : Stage table use first [] a (fun _ => none) s)
    (n : Nat) {body : List Line} (hb : ∀ l ∈ body, l.mnemonic ≠ "START" ∧ l.mnemonic ≠ "END") :
    ((∃ s', CleanSteps (State.line table use) (fun s => s.found = []) s n body s') ↔
      BodyFits .absolute table use a (fun _ => none) body ∧ ∀ l ∈ body, l.Legible .absolute table) ∧
    ∀ s', CleanSteps (State.line table use) (fun s => s.found = []) s n body s' →
      Stage table use first (placed .absolute table none a body) (a + extentOf .absolute table body)
        (addressOf ((placed .absolute table none a body).map (·.1))) s' := by
  rw [BodyFits, ← allAlong_line_iff, ← allAlong_and_iff]
  refine cleanSteps_iff_allAlong
    (fun ps a s => Stage table use first ps a (addressOf (ps.map (·.1))) s)
      (fun _ _ _ => True) _ ?_ ?_ h n hb (allAlong_line_iff.2 fun _ _ => trivial)
  · intro ps a s n l hs _ hl
    exact hs.line_clean_iff ht hl n
  · intro ps a s n l s' hs _ hl hstep hc
    rw [List.map_append]
    exact (addressOf_concat _ _).symm ▸ hs.line ht hl hstep hc

theorem State.openProblems_eq_nil_iff {places : String → List (Option Nat)}
    (h : Accounts s.names s.waiting ρ places) (hpos : ∀ x b, ρ x = some b → 0 < b) :
    s.openProblems = [] ↔ ∀ y, ρ y = none → places y = [] := by
  have htaken : ∀ x, isTaken s.names x = (ρ x).isSome := by
    intro x
    rw [h.isTaken_eq]
    cases hx : ρ x with
    | none => rfl
    | some b => simpa using (hpos x b hx).ne'
  rw [← h.forall_keys_iff]
  simp [State.openProblems, OrderedMap.keys, htaken, Option.isSome_iff_ne_none]

theorem Stage.openProblems_eq_nil_iff (h : Stage table use first ps a ρ s) :
    s.openProblems = [] ↔ Closed ρ ps := by
  rw [State.openProblems_eq_nil_iff h.ledger.accounts h.labels_positive, closed_iff]

/-- An end directive gives the header its length and adds the entry address, which has to be an
address of the program. -/
theorem Stage.endLine_clean_iff (h : Stage table use first ps a ρ s) (n : Nat) :
    (s.endLine n l).found = [] ↔ isOptionalNumber l.operands = true ∧
      flatEntry .absolute first l ∈ Layout.absolute.load first :: ps.map fun p =>
        p.1.address + p.2 := by
  have hentry : s.entryPoint l = flatEntry .absolute first l := by
    rw [State.entryPoint, h.origin, flatEntry]
  simp only [State.endLine, State.report, h.found, hentry, h.visited, List.nil_append,
    Site.report_eq_nil_iff, List.append_eq_nil_iff, ite_eq_left_iff, reduceCtorEq, imp_false,
    Bool.not_eq_true, Bool.not_eq_false, List.contains_iff_mem, Classical.not_not]

theorem view_close_eq_some_iff (s : State) (v : Snapshot) (rs : List ObjectRecord) :
    (s.close.view = v ∧ v.records = some rs) ↔
      s.found = [] ∧ s.started = true ∧ s.ended = true ∧ InMemory s.counter ∧ s.openProblems = [] ∧
        rs = s.records ∧ v = ⟨some rs, .flat s.names, []⟩ := by
  have hfound : s.close.found = [] ↔
      s.found = [] ∧ s.started = true ∧ s.ended = true ∧ InMemory s.counter ∧
      s.openProblems = [] := by
    simp [State.close]
  have hview : s.close.view =
      ⟨if s.close.found.isEmpty then some s.records else none, .flat s.names, s.close.found⟩ := rfl
  rw [hview]
  constructor
  · rintro ⟨rfl, hr⟩
    by_cases hc : s.close.found = []
    · obtain ⟨hf, hst, hend, hm, hopen⟩ := hfound.1 hc
      obtain rfl : s.records = rs := by simpa [hc] using hr
      exact ⟨hf, hst, hend, hm, hopen, rfl, by simp [hc]⟩
    · simp [hc] at hr
  · rintro ⟨hf, hst, hend, hm, hopen, rfl, rfl⟩
    have hc := hfound.2 ⟨hf, hst, hend, hm, hopen⟩
    exact ⟨by simp [hc], rfl⟩

theorem pass_watched (table : OpTable) (use : NameUse) :
    (pass table use).watched = State.line table use := by
  funext s n l
  simp only [Pass.watched, pass]
  cases s.line table use n l with
  | error x => rfl
  | ok s' => exact ite_self _

/-- The records of a pass agree with those of the placed lines. -/
theorem Written.agree {p : Row × Int} {r : ObjectRecord} (h : Written table ρ p r) :
    ((recordOf .absolute table p ((fieldOf .absolute table ρ p).getD "")).fields .flat).Agree
      (r.fields .patched) := by
  obtain ⟨f, rfl, hf⟩ := h
  unfold recordOf
  split
  · exact ⟨rfl, rfl, rfl, rfl, (SameDigits.hex _ _ 2 _).append hf.symm⟩
  · exact ObjectRecord.agree_self _ _ _
  · exact ObjectRecord.agree_self _ _ _

theorem Written.setLength_eq {p : Row × Int} {r : ObjectRecord} (h : Written table ρ p r)
    (n : Int) : setLength n r = r := by
  obtain ⟨f, rfl, -⟩ := h
  unfold recordOf
  split
  · rfl
  · unfold storageRecord
    split <;> rfl
  · rfl

theorem modifiedIn_absolute (table : OpTable) (p : Row × Int) :
    modifiedIn .absolute table p = [] := by
  unfold modifiedIn
  split <;> rfl

/-- The state behind the end directive holds the object code of the program. -/
theorem Stage.agree {body : List Line} {last : Line}
    (h : Stage table use first (flatRows .absolute table first body)
      (flatEnd .absolute table first body) (flatLabels .absolute table first body last) s)
        (n : Nat) :
    List.Forall₂ (fun r r' => (r.fields .flat).Agree (r'.fields .patched))
      (flatRecords .absolute table first body last) (s.endLine n last).records := by
  obtain ⟨rs, hrs, hwritten⟩ := h.records
  have hmodified :
      (flatRows .absolute table first body).flatMap (modifiedIn .absolute table) = [] := by
    simp [modifiedIn_absolute]
  have hrecords : (s.endLine n last).records =
      .header first.label (Layout.absolute.load first) (some (s.counter - s.origin)) ::
        (rs.map (setLength (s.counter - s.origin)) ++ [.finish (s.entryPoint last)]) := by
    rw [State.endLine, hrs]
    rfl
  rw [hrecords, flatRecords, hmodified, State.entryPoint, h.origin, h.counter]
  simp only [List.map_nil, List.append_nil, List.cons_append]
  refine .cons (ObjectRecord.agree_self _ _ _)
    (List.rel_append ?_ (.cons (ObjectRecord.agree_self _ _ _) .nil))
  rw [List.forall₂_map_left_iff, List.forall₂_map_right_iff]
  exact hwritten.imp fun p r hr => by rw [hr.setLength_eq]; exact hr.agree

/-- A trace that ends without problems ends in records. -/
theorem records_of_found {program : List Line} {v : Snapshot}
    (h : (trace table use program).AcceptedWith v) :
    ∃ rs, v.records = some rs := by
  obtain ⟨hfault, hlast, hfound⟩ := h
  obtain ⟨s', -, hview⟩ := ((pass table use).trace_getLast?_eq_iff _ _ _ _).1 ⟨hfault, hlast⟩
  obtain rfl := Except.ok.inj hview
  exact ⟨_, if_pos (List.isEmpty_iff.2 hfound)⟩

/-- A run that is accepted is cut at the directives that frame the program. -/
theorem cut_of_trace {program : List Line} {v : Snapshot} {rs : List ObjectRecord}
    (hfault : (trace table use program).fault = none)
    (hlast : (trace table use program).snapshots.getLast? = some v) (hrs : v.records = some rs) :
    ∃ first body last rest s₁ s₂, program = first :: (body ++ last :: rest) ∧
      (first.mnemonic = "START" ∧ isOptionalNumber first.operands = true ∧
        first.name?.isSome = true ∧
        InMemory (Layout.absolute.load first) ∧
        Layout.absolute.loadProblems (Layout.absolute.load first) = []) ∧
      (∀ l ∈ body, l.mnemonic ≠ "START" ∧ l.mnemonic ≠ "END") ∧ last.mnemonic = "END" ∧
      CleanSteps (State.line table use) (fun s => s.found = [])
        (.opened first) 2 body s₁ ∧
      (s₁.line table use (2 + body.length) last = .ok s₂ ∧ s₂.found = []) ∧ InMemory s₂.counter ∧
      s₂.openProblems = [] ∧
      rs = s₂.records ∧ v.symbols = .flat s₂.names := by
  obtain ⟨s₂, hrun, hview⟩ := ((pass table use).trace_getLast?_eq_iff _ _ _ _).1 ⟨hfault, hlast⟩
  rw [pass_watched] at hrun
  obtain ⟨hf, -, hend, hm, hopen, rfl, rfl⟩ :=
    (view_close_eq_some_iff s₂ v rs).1 ⟨Except.ok.inj hview, hrs⟩
  obtain ⟨first, body, last, rest, s₀, s₁, rfl, hfirst, hb, hl, hstart, hc₀, hsteps, hfin, hc⟩ :=
    (runLines_program_iff (State.stepping table use) rfl rfl 1 program).1 ⟨hrun, hf, hend⟩
  rw [State.line_start hfirst] at hstart
  obtain rfl := Except.ok.inj hstart
  have hcommences := (Frame.found_commence_eq_nil_iff _).1 hc₀
  obtain ⟨hop, hname, hload, hlayout⟩ := (Frame.commences_initial_iff .absolute).1 hcommences
  rw [State.startLine_start hcommences] at hsteps
  exact ⟨first, body, last, rest, s₁, s₂, rfl, ⟨hfirst, hop, hname, hload, hlayout⟩, hb, hl, hsteps,
    ⟨hfin, hc⟩, hm, hopen, rfl,
    rfl⟩

/-- A program that the pass accepts is one that nothing is wrong with. -/
theorem of_trace (ht : table.Sized .absolute) {program : List Line} {v : Snapshot}
    {rs : List ObjectRecord} (hfault : (trace table use program).fault = none)
    (hlast : (trace table use program).snapshots.getLast? = some v) (hrs : v.records = some rs) :
    ∃ first body last rest, program = first :: (body ++ last :: rest) ∧
      FlatProgram .absolute table use first body last ∧
      Resolved .absolute table first body last ∧
      ∃ s n, Stage table use first (flatRows .absolute table first body)
        (flatEnd .absolute table first body) (flatLabels .absolute table first body last) s ∧
        rs = (s.endLine n last).records ∧ v.symbols = .flat s.names := by
  obtain ⟨first, body, last, rest, s₁, s', rfl, ⟨hfirst, hop, hname, hload, hlayout⟩, hb, hl,
      hsteps, ⟨hfin, hc⟩, hm, hopen, rfl,
    hsymbols⟩ := cut_of_trace hfault hlast hrs
  have hstage₀ : Stage table use _ _ _ _ _ := Stage.start hload hlayout
  obtain ⟨hiff, hinv⟩ := hstage₀.body ht 2 hb
  obtain ⟨hbody, hlegible⟩ := hiff.1 ⟨s₁, hsteps⟩
  obtain ⟨hnew, hlab, s₂, hstage, hbl⟩ := (hinv s₁ hsteps).line_cases ht (by simp [hl]) hfin hc
  rw [(Statement.ofMnemonic_eq_finish_iff _ _ _).2 hl] at hbl
  obtain rfl := Except.ok.inj hbl
  obtain ⟨hop', hentry⟩ := (hstage.endLine_clean_iff _).1 hc
  have hend' : InMemory (flatEnd .absolute table first body) := by
    rw [flatEnd, ← hstage.counter]; exact hm
  have hclosed :
      Closed (flatLabels .absolute table first body last) (flatRows .absolute table first body) :=
    hstage.openProblems_eq_nil_iff.1 hopen
  exact ⟨first, body, last, rest, rfl,
    ⟨hfirst, hop, hname, hload, hlayout, hbody, hl, hop', hnew, hend'⟩,
    (resolved_iff ht hbody).2 ⟨hlegible, hclosed, hentry⟩, s₂, _, hstage, rfl, hsymbols⟩

/-- The pass accepts every program that nothing is wrong with. -/
theorem trace_of (ht : table.Sized .absolute) {first : Line} {body : List Line} {last : Line}
    (rest : List Line) (h : FlatProgram .absolute table use first body last)
    (hres : Resolved .absolute table first body last) :
    ∃ v rs, (trace table use (first :: (body ++ last :: rest))).fault = none ∧
      (trace table use (first :: (body ++ last :: rest))).snapshots.getLast? = some v ∧
      v.records = some rs := by
  obtain ⟨hlegible, hclosed, hentry⟩ := (resolved_iff ht h.body_fits).1 hres
  have hstart : State.start.line table use 1 first = .ok (.opened first) := by
    rw [State.line_start h.start, State.startLine_start]
    exact (Frame.commences_initial_iff .absolute).2 ⟨h.start_operands, h.start_label, h.load,
      h.load_layout⟩
  have hstage₀ : Stage table use _ _ _ _ _ := Stage.start h.load h.load_layout
  obtain ⟨hiff, hinv⟩ := hstage₀.body ht 2 h.body_fits.not_frame
  obtain ⟨s₁, hsteps⟩ := hiff.2 ⟨h.body_fits, hlegible⟩
  have hstage₁ := hinv s₁ hsteps
  obtain ⟨s₂, hn, hstage₂⟩ :=
    hstage₁.noteLabel ht (2 + body.length) h.finish_label fun _ => h.finish_inMemory
  have hfin :
      s₁.line table use (2 + body.length) last = .ok (s₂.endLine (2 + body.length) last) := by
    rw [State.line_eq (by simp [h.finish]), hstage₁.expectStarted, hn,
      (Statement.ofMnemonic_eq_finish_iff _ _ _).2 h.finish]
    rfl
  have hc : (s₂.endLine (2 + body.length) last).found = [] :=
    (hstage₂.endLine_clean_iff _).2 ⟨h.finish_operands, hentry⟩
  obtain ⟨hrun, hf, hend⟩ := (runLines_program_iff (State.stepping table use) rfl rfl 1 _).2
    ⟨first, body, last, rest, _, s₁, rfl, h.start, h.body_fits.not_frame, h.finish, hstart, rfl,
      hsteps, hfin, hc⟩
  have hview := (view_close_eq_some_iff (s₂.endLine (2 + body.length) last) _ _).2
    ⟨hf, hstage₂.started, hend, hstage₂.counter ▸ h.finish_inMemory,
      hstage₂.openProblems_eq_nil_iff.2 hclosed, rfl, rfl⟩
  obtain ⟨hfault, hlast⟩ := ((pass table use).trace_getLast?_eq_iff .start 1 _ _).2
    ⟨_, by rw [pass_watched]; exact hrun, congrArg Except.ok hview.1⟩
  exact ⟨_, _, hfault, hlast, hview.2⟩

end Assembler.OnePass.Absolute
