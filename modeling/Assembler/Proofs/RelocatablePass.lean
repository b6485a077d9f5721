import Assembler.OnePass.Relocatable
import Assembler.Proofs.Frames
import Assembler.Proofs.Drafts
import Assembler.Proofs.Waiting

/-! # Relocatable programs in one pass

The drafts of a run are those of the lines placed so far, settled by labels met so far.  This
invariant, `Stage`, carries over from line to line.  A label is taken for new as long as it is not
known at an address other than zero; where no label is given twice the pass accepts exactly the
programs that two passes accept and makes the same records. -/

namespace Assembler.OnePass.Relocatable
open Assembler
set_option autoImplicit false

/-- The draft of a placed line, settled by known labels. -/
def draftOf (table : OpTable) (ρ : String → Option Int) (p : Row × Int) : Draft :=
  match Statement.ofMnemonic .relocatable table p.1.line.mnemonic with
  | .command op =>
    .code p.1.address op.size (some (codeByte op.opcode p.1.line.operands))
      (p.1.line.operands.map (·.settled (.ofAddresses ρ (p.1.address + op.size))))
  | .storage kind => storageDraft p.1.address p.2 (kind.digits? p.1.line.operands)
  | _ => .space p.1.address p.2

/-- A draft of a placed line: its name is settled if and only if it is known, and by what is known
of it if labels are given only `once`. -/
structure Drafted (table : OpTable) (once : Prop) (ρ : String → Option Int) (p : Row × Int)
    (r : Draft) : Prop where
  settled : ∃ σ, r = draftOf table σ p ∧ ∀ x, referenceOf p.1.line.operands = some x →
    (σ x = none ↔ ρ x = none)
  latest : once → r = draftOf table ρ p

theorem drafted_draftOf (table : OpTable) (once : Prop) (ρ : String → Option Int) (p : Row × Int) :
    Drafted table once ρ p (draftOf table ρ p) := ⟨⟨ρ, rfl, fun _ _ => Iff.rfl⟩, fun _ => rfl⟩

/-- The pass after lines that nothing is wrong with: they are placed as `ps`, the next one stands at
`a`, and the labels met are `ρ`. -/
structure Stage (table : OpTable) (use : NameUse) (first : Line) (once : Prop)
    (ps : List (Row × Int)) (a : Int) (ρ : String → Option Int) (s : State) : Prop where
  counter : s.counter = a
  origin : s.origin = Layout.relocatable.load first
  visited : s.visited = Layout.relocatable.load first :: ps.map fun p => p.1.address + p.2
  started : s.started = true
  found : s.found = []
  ledger : Ledger s.names s.waiting ρ ps
  drafts : ∃ rs, s.drafts = .header first.label (Layout.relocatable.load first) none :: rs ∧
    List.Forall₂ (Drafted table once ρ) ps rs
  modified : s.modified = ps.flatMap (modifiedIn .relocatable table)
  lines : ∀ p ∈ ps, p.1.line.Fits .relocatable table use p.1.address ∧
    p.1.line.Legible .relocatable table ∧
    p.2 = p.1.line.extent .relocatable table
  labels : ∀ x b, ρ x = some b → InMemory b

variable {table : OpTable} {use : NameUse} {first : Line} {once : Prop} {ps : List (Row × Int)}
  {a : Int} {ρ : String → Option Int} {s s' : State} {l : Line}

namespace State

/-! ## What single steps leave -/

@[simp] theorem waitForAll_found (s : State) (l : Line) : (s.waitForAll l).found = s.found := rfl

theorem fillWaiting_eq {x : String} (h : s.fillWaiting x = .ok s') :
    ∃ waiting drafts, s' = { s with waiting, drafts } := by
  unfold fillWaiting at h
  split at h
  · cases h; exact ⟨_, _, rfl⟩
  · rw [map_eq_ok_iff] at h
    obtain ⟨rs, -, rfl⟩ := h
    exact ⟨_, _, rfl⟩

/-- Noting a label reports, notes and fills, and does nothing else. -/
theorem noteLabel_eq {n : Nat} (h : s.noteLabel n l = .ok s') :
    ∃ qs names waiting drafts, s.names.keys <+: names.keys ∧
      s' = { s.report n qs with names, waiting, drafts } := by
  unfold noteLabel at h
  split at h
  · cases h
    exact ⟨[], s.names, s.waiting, s.drafts, List.prefix_rfl, by simp [report]⟩
  · split at h
    · cases h
      exact ⟨_, _, _, _, List.prefix_rfl, rfl⟩
    · obtain ⟨waiting, drafts, rfl⟩ := fillWaiting_eq h
      exact ⟨_, _, _, _, s.names.keys_prefix_insert _ _, rfl⟩

theorem storageLine_clean_iff (kind : Storage) (n : Nat) (l : Line) :
    (s.storageLine kind n l = .ok s' ∧ s'.found = []) ↔
      s.found = [] ∧ (∃ al, kind.allot s.counter l.operands = .ok al ∧ al.problems = []) ∧
        s' = (s.add
          (storageDraft s.counter (kind.extent l.operands) (kind.digits? l.operands))).moveTo
            (s.counter + kind.extent l.operands) :=
  Storage.clean_iff (fun s : State => s.found) (fun _ => rfl) (fun _ _ => rfl) fun al hal => by
    simp [report, (Storage.allot_eq hal).1, Draft.ofAllotment_eq hal s.counter, moveTo, add]

theorem commandLine_clean_iff (op : Operation) (n : Nat) (l : Line) :
    (s.commandLine use op n l = .ok s' ∧ s'.found = []) ↔
      s.found = [] ∧
      (commandProblems .relocatable s.counter l.mnemonic op.size l.operands = .ok [] ∧
        nameUseProblems use l.operands = []) ∧
        (∃ f, Field.inOnePass dialect (s.scope (s.counter + op.size)) op.size l.operands = .ok f) ∧
        ∃ r, s.fill (.code s.counter op.size (some (codeByte op.opcode l.operands)) l.operands) =
          .ok r ∧
          s' = ((s.add r).noteModified l.operands).moveTo (s.counter + op.size) := by
  have hpush :
      ∀ qs r, (((s.report n qs).add r).noteModified l.operands).moveTo (s.counter + op.size) =
        { ((s.add r).noteModified l.operands).moveTo (s.counter + op.size) with
          found := s.found ++ (Site.line n).report qs } := by
    intro qs r
    unfold noteModified
    split <;> rfl
  have hfound :
      ∀ r, (((s.add r).noteModified l.operands).moveTo (s.counter + op.size)).found = s.found := by
    intro r
    unfold noteModified
    split <;> rfl
  unfold commandLine
  cases h : commandProblems .relocatable s.counter l.mnemonic op.size l.operands with
  | error x => simp [h]
  | ok qs =>
    cases hin : Field.inOnePass dialect (s.scope (s.counter + op.size)) op.size l.operands with
    | error x => simp [h, hin]
    | ok f =>
      simp only [h, hin, map_eq_ok_iff, Except.ok.injEq, hpush, exists_eq', true_and]
      constructor
      · rintro ⟨⟨r, hr, rfl⟩, hc⟩
        simp only [List.append_eq_nil_iff, Site.report_eq_nil_iff] at hc
        obtain ⟨hc, rfl, hu⟩ := hc
        refine ⟨hc, ⟨rfl, hu⟩, r, hr, ?_⟩
        simp [hu, ← hfound r]
      · rintro ⟨hc, ⟨rfl, hu⟩, r, hr, rfl⟩
        refine ⟨⟨r, hr, ?_⟩, by rw [hfound, hc]⟩
        simp [hu, ← hfound r]

end State

/-! ## Labels -/

theorem admitted_of_fits (ht : table.Sized .relocatable) {op : Operation}
    (hop : Statement.ofMnemonic .relocatable table l.mnemonic = .command op)
    (hfit : l.Fits .relocatable table use a) :
    Admitted op.size l.operands ∧ InMemory (a + op.size) := by
  rw [Line.Fits, hop] at hfit
  exact (commandProblems_eq_nil_iff (ht.mem_commandSizes hop) _ _ _).1 hfit.1

theorem State.fill_code (hnames : addressIn s.names = ρ)
    (hlabels : ∀ x b, ρ x = some b → InMemory b) {size : Int} {ops : List Operand}
    (hadm : Admitted size ops) (hl : ∀ o ∈ ops, o.Legible) (hnext : InMemory (a + size))
    (byte : Int) :
    s.fill (.code a size (some byte) ops) =
      .ok (.code a size (some byte) (ops.map (·.settled (.ofAddresses ρ (a + size))))) := by
  have hk : (s.scope (a + size)).Knows (.ofAddresses ρ (a + size)) Fault.IsUndefinedName :=
    hnames ▸ Scope.relocatable_knows s.names (a + size)
  have hsettle : Draft.settleAll (fun _ => true) (s.scope (a + size)) ops =
      .ok (ops.map (·.settled (.ofAddresses ρ (a + size)))) :=
      Draft.settleAll_eq hk (fun _ _ => rfl) hl
  have htext : (ops.map (·.settled (.ofAddresses ρ (a + size)))).all Operand.hasText = true := by
    refine all_hasText_settled hadm (fun x v _ hx => (hlabels x v hx).hasDecimal) fun x v _ hx => ?_
    obtain ⟨b, hb, rfl⟩ := Option.map_eq_some_iff.1 hx
    exact hasDecimal_displacement (hlabels x b hb) hnext
  simp only [State.fill, Draft.fill, hsettle, map_ok, Draft.hasText, htext, if_true]

theorem draftOf_congr (ht : table.Sized .relocatable) {p : Row × Int}
    (hfit : p.1.line.Fits .relocatable table use p.1.address) {ρ' : String → Option Int}
    (h : ∀ x, referenceOf p.1.line.operands = some x → ρ x = ρ' x) :
    draftOf table ρ p = draftOf table ρ' p := by
  rcases hfit.cases with ⟨kind, al, hk, hal, -⟩ | ⟨op, hop, hc, -⟩
  · simp only [draftOf, hk]
  · have hadm := (admitted_of_fits ht hop hfit).1
    simp only [draftOf, hop]
    rw [map_settled_congr hadm (fun x hx => ?_) (fun x hx => ?_)]
    · exact h x (by rw [hx]; rfl)
    · exact congrArg (Option.map (displacement · _)) (h x (by rw [hx]; rfl))

theorem State.fill_draftOf (ht : table.Sized .relocatable) {x : String} (hx : ρ x = none)
    {ρ' : String → Option Int} (hnames : addressIn s.names = ρ')
    (hlabels : ∀ x b, ρ' x = some b → InMemory b) {p : Row × Int}
    (hfit : p.1.line.Fits .relocatable table use p.1.address)
    (hl : p.1.line.Legible .relocatable table) (hr : referenceOf p.1.line.operands = some x) :
    s.fill (draftOf table ρ p) = .ok (draftOf table ρ' p) := by
  obtain ⟨op, hop, hops⟩ := command_of_reference ht hfit hr
  obtain ⟨hadm, hnext⟩ := admitted_of_fits ht hop hfit
  have hopen :
      p.1.line.operands.map (·.settled (.ofAddresses ρ (p.1.address + op.size))) =
        p.1.line.operands := by
    rcases hops with ⟨h, -⟩ | ⟨h, -⟩ <;>
      simp [h, Operand.settled, Operand.value?, Reading.ofAddresses, hx]
  simp only [draftOf, hop, hopen]
  exact State.fill_code hnames hlabels hadm (hl op hop) hnext _

/-- Filling what waits for a label settles the drafts that refer to it. -/
theorem Stage.fillWaiting (ht : table.Sized .relocatable) (h : Stage table use first once ps a ρ s)
    {x : String} (hx : ρ x = none) (hm : InMemory a) :
    ∃ s', State.fillWaiting { s with names := s.names.insert x (some s.counter) } x = .ok s' ∧
      Stage table use first once ps a (fun y => if x = y then some a else ρ y) s' := by
  obtain rfl := h.counter
  have hlabels : ∀ y b, (if x = y then some s.counter else ρ y) = some b → InMemory b := by
    intro y b hy
    split at hy
    · cases hy; exact hm
    · exact h.labels y b hy
  have hnames : addressIn (s.names.insert x (some s.counter)) = fun y => if x = y
      then some s.counter else ρ y :=
    (h.ledger.note s.counter).addressIn_eq
  obtain ⟨rs, hrs, hdrafted⟩ := h.drafts
  obtain ⟨rs', hchanged, hdrafted'⟩ : ∃ rs',
      changeAll (State.fill { s with names := s.names.insert x (some s.counter) })
        (placesOf x 1 ps) s.drafts =
          .ok (.header first.label (Layout.relocatable.load first) none :: rs') ∧
      List.Forall₂ (Drafted table once fun y => if x = y then some s.counter else ρ y) ps rs' := by
    rw [hrs]
    refine changeAll_placesWhere (fun p hp r hr href => ?_) (fun p hp r hr href => ?_) [_] hdrafted
    · obtain ⟨⟨σ, rfl, hσ⟩, -⟩ := hr
      obtain ⟨hfit, hl, -⟩ := h.lines p hp
      exact ⟨_, State.fill_draftOf ht ((hσ x href).2 hx) hnames hlabels hfit hl href,
        drafted_draftOf _ _ _ _⟩
    · obtain ⟨⟨σ, rfl, hσ⟩, hlatest⟩ := hr
      have hkeep : ∀ y, referenceOf p.1.line.operands = some y → ρ y = if x = y then some s.counter
          else ρ y := by
        intro y hy
        have hne : x ≠ y := fun hxy => href (hxy ▸ hy)
        rw [if_neg hne]
      refine ⟨⟨σ, rfl, fun y hy => ?_⟩, fun honce => ?_⟩
      · rw [← hkeep y hy]
        exact hσ y hy
      · rw [hlatest honce]
        exact draftOf_congr ht (h.lines p hp).1 hkeep
  have hwaiting := h.ledger.waiting_eq hx
  unfold State.fillWaiting
  simp only [hwaiting]
  by_cases hp : placesOf x 1 ps = []
  · rw [if_pos hp] at hwaiting ⊢
    rw [hp, changeAll, Except.ok.injEq] at hchanged
    exact ⟨_, rfl, { h with
      ledger := h.ledger.note_of_not_waiting hwaiting _
      drafts := ⟨rs', hchanged, hdrafted'⟩
      labels := hlabels }⟩
  · rw [if_neg hp]
    simp only [hchanged, map_ok]
    exact ⟨_, rfl, { h with
      ledger := h.ledger.note _
      drafts := ⟨rs', rfl, hdrafted'⟩
      labels := hlabels }⟩

theorem Stage.renew (h : Stage table use first once ps a ρ s) (honce : ¬ once) {x : String}
    {b : Int} (hx : ρ x = some b) (hm : InMemory a) :
    ∃ s', State.fillWaiting { s with names := s.names.insert x (some s.counter) } x = .ok s' ∧
      Stage table use first once ps a (fun y => if x = y then some a else ρ y) s' := by
  obtain rfl := h.counter
  have hwaiting : s.waiting.get? x = none := by
    have hrecorded := h.ledger x
    rw [hx] at hrecorded
    exact hrecorded.2
  obtain ⟨rs, hrs, hdrafted⟩ := h.drafts
  unfold State.fillWaiting
  simp only [hwaiting]
  refine ⟨_, rfl, { h with
    ledger := h.ledger.note_of_not_waiting hwaiting _
    drafts := ⟨rs, hrs, hdrafted.imp fun p r hr => ?_⟩
    labels := fun y b hy => ?_ }⟩
  · obtain ⟨⟨σ, rfl, hσ⟩, -⟩ := hr
    refine ⟨⟨σ, rfl, fun y hy => ?_⟩, fun h => absurd h honce⟩
    rw [hσ y hy]
    split
    · next hxy => simp [← hxy, hx]
    · rfl
  · split at hy
    · cases hy; exact hm
    · exact h.labels y b hy

/-- A label can be given to a line: it is not known at an address other than zero. -/
def Vacant (known : String → Option Int) (l : Line) : Prop :=
  ∀ x b, l.name? = some x → known x = some b → b = 0

theorem Vacant.of_fresh (h : Fresh ρ l) : Vacant ρ l := fun x b hl hx => by simp [h x hl] at hx

theorem Stage.noteLabel (ht : table.Sized .relocatable) (h : Stage table use first once ps a ρ s)
    (n : Nat) (hnew : once → Fresh ρ l) (hvacant : Vacant ρ l) (hfit : l.LabelFits a) :
    ∃ s', s.noteLabel n l = .ok s' ∧ Stage table use first once ps a (labelled ρ a l) s' := by
  unfold State.noteLabel
  cases hl : l.name? with
  | none => exact ⟨s, rfl, by rwa [labelled_of_none hl]⟩
  | some x =>
    have hm : InMemory a := hfit (by simp [hl])
    have htaken : isTaken s.names x = false := by
      rw [h.ledger.isTaken_eq]
      cases hx : ρ x with
      | none => rfl
      | some b => simp [hvacant x b hl hx]
    have hfill :
        ∃ s', State.fillWaiting { s with names := s.names.insert x (some s.counter) } x = .ok s' ∧
        Stage table use first once ps a (fun y => if x = y then some a else ρ y) s' := by
      cases hx : ρ x with
      | none => exact h.fillWaiting ht hx hm
      | some b => exact h.renew (fun honce => by simp [hnew honce x hl] at hx) hx hm
    rw [labelled_of_some hl]
    simpa [htaken, State.report, h.counter ▸ (rangeProblems_eq_nil_iff _ _).2 hm] using hfill

/-- A label that is left without a problem stands in memory and could be given. -/
theorem Stage.of_noteLabel (h : Stage table use first once ps a ρ s) {n : Nat}
    (hs : s.noteLabel n l = .ok s') (hf : s'.found = []) : l.LabelFits a ∧ Vacant ρ l := by
  unfold State.noteLabel at hs
  cases hl : l.name? with
  | none => exact ⟨fun hx => by simp [hl] at hx, fun x b hx => by simp [hl] at hx⟩
  | some x =>
    simp only [hl, h.ledger.isTaken_eq] at hs
    split at hs
    · cases hs
      simp [State.report] at hf
    · next htaken =>
      obtain ⟨waiting, drafts, rfl⟩ := State.fillWaiting_eq hs
      simp only [State.report, List.append_eq_nil_iff, Site.report_eq_nil_iff,
        rangeProblems_eq_nil_iff] at hf
      refine ⟨fun _ => h.counter ▸ hf.2, fun y b hy hb => ?_⟩
      obtain rfl := Option.some.inj (hl.symm.trans hy)
      simpa [hb] using htaken

/-! ## Lines of the body -/

theorem State.waitForAll_eq_self (s : State) (h : ∀ o ∈ l.operands, o.referredName? = none) :
    s.waitForAll l = s := by
  rw [State.waitForAll, s.await_eq_self .relocatable _ h]

/-- The state after the draft of a line is added, before its reference is looked at. -/
def State.push (table : OpTable) (s : State) (p : Row × Int) (r : Draft) : State :=
  { s.add r with modified := s.modified ++ modifiedIn .relocatable table p }.moveTo
    (p.1.address + p.2)

/-- A line adds its draft, moves the counter and lets its reference wait. -/
theorem Stage.push (ht : table.Sized .relocatable) (h : Stage table use first once ps a ρ s)
    {p : Row × Int} (hp : p = (⟨a, l, none⟩, l.extent .relocatable table))
    (hfit : l.Fits .relocatable table use a) (hl : l.Legible .relocatable table) :
    Stage table use first once (ps ++ [p]) (a + l.extent .relocatable table) ρ
      ((s.push table p (draftOf table ρ p)).waitForAll l) := by
  obtain ⟨rs, hrs, hdrafted⟩ := h.drafts
  have hstage : ∀ names waiting, Ledger names waiting ρ (ps ++ [p]) →
      Stage table use first once (ps ++ [p]) (a + l.extent .relocatable table) ρ
        { s.push table p (draftOf table ρ p) with names, waiting } := by
    intro names waiting hledger
    subst hp
    refine ⟨rfl, h.origin, ?_, h.started, h.found, hledger,
      ⟨rs ++ [draftOf table ρ (⟨a, l, none⟩, l.extent .relocatable table)], ?_, ?_⟩, ?_, ?_,
      h.labels⟩
    · simp [State.push, State.moveTo, State.add, h.visited]
    · simp only [State.push, State.moveTo, State.add, hrs, List.cons_append]
    · exact List.rel_append hdrafted (.cons (drafted_draftOf _ _ _ _) .nil)
    · simp [State.push, State.moveTo, State.add, h.modified]
    · intro q hq
      rcases List.mem_append.1 hq with hq | hq
      · exact h.lines q hq
      · rw [List.mem_singleton.1 hq]
        exact ⟨hfit, hl, rfl⟩
  have hline : p.1.line = l := by rw [hp]
  cases hx : referenceOf l.operands with
  | none =>
    rw [State.waitForAll_eq_self _ (referredName?_eq_none ht hfit hx)]
    exact hstage _ _ (h.ledger.skip (by simp [hline, hx]))
  | some x =>
    obtain ⟨o, ho, hname⟩ : ∃ o, l.operands = [o] ∧ o.referredName? = some x := by
      obtain ⟨op, -, ⟨h, -⟩ | ⟨h, -⟩⟩ := command_of_reference ht hfit hx <;> exact ⟨_, h, rfl⟩
    have hlength : (s.push table p (draftOf table ρ p)).drafts.length = ps.length + 2 := by
      simp [State.push, State.moveTo, State.add, hrs, hdrafted.length_eq]
    have hopen : isOpen (s.push table p (draftOf table ρ p)).names x = (ρ x).isNone :=
      h.ledger.isOpen_eq x
    rw [State.waitForAll, FlatFrame.await_single _ .relocatable _ ho hname, hopen, hlength]
    cases hρ : ρ x with
    | none => exact hstage _ _ (h.ledger.await (by rw [hline, hx]) hρ)
    | some b => exact hstage _ _ (h.ledger.skip (by simp [hline, hx, hρ]))

theorem Stage.knows (h : Stage table use first once ps a ρ s) (next : Int) :
    (s.scope next).Knows (.ofAddresses ρ next) Fault.IsUndefinedName :=
  h.ledger.addressIn_eq ▸ Scope.relocatable_knows s.names next

/-- A line of the body leaves no problem if and only if it fits and its strings have values; it then
gives the draft that is settled by the labels met so far. -/
theorem Stage.bodyLine_clean_iff (ht : table.Sized .relocatable)
    (h : Stage table use first once ps a ρ s) (hl : l.mnemonic ≠ "START" ∧ l.mnemonic ≠ "END")
    (n : Nat) {p : Row × Int} (hp : p = (⟨a, l, none⟩, l.extent .relocatable table)) :
    (s.bodyLine use (Statement.ofMnemonic .relocatable table l.mnemonic) n l = .ok s' ∧
      s'.found = []) ↔
      l.Fits .relocatable table use a ∧ l.Legible .relocatable table ∧
          s' = (s.push table p (draftOf table ρ p)).waitForAll l := by
  subst hp
  obtain rfl := h.counter
  have hmap : ∀ x : Except Fault State, (x.map (·.waitForAll l) = .ok s' ∧ s'.found = []) ↔
      ∃ s₁, (x = .ok s₁ ∧ s₁.found = []) ∧ s' = s₁.waitForAll l := by
    intro x
    rw [map_eq_ok_iff]
    constructor
    · rintro ⟨⟨s₁, hx, rfl⟩, hf⟩
      exact ⟨s₁, ⟨hx, by simpa using hf⟩, rfl⟩
    · rintro ⟨s₁, ⟨hx, hf⟩, rfl⟩
      exact ⟨⟨s₁, hx, rfl⟩, by simpa using hf⟩
  unfold Line.Fits Line.Legible Line.extent draftOf State.push modifiedIn State.bodyLine
  generalize hst : Statement.ofMnemonic .relocatable table l.mnemonic = st
  cases st with
  | start => exact absurd ((Statement.ofMnemonic_eq_start_iff _ _ _).1 hst) hl.1
  | finish => exact absurd ((Statement.ofMnemonic_eq_finish_iff _ _ _).1 hst) hl.2
  | storage kind =>
    simp only [hmap, State.storageLine_clean_iff, h.found, true_and, reduceCtorEq, false_implies,
      implies_true, List.append_nil]
    constructor
    · rintro ⟨s₁, ⟨hal, rfl⟩, rfl⟩
      exact ⟨hal, rfl⟩
    · rintro ⟨hal, rfl⟩
      exact ⟨_, ⟨hal, rfl⟩, rfl⟩
  | command op =>
    simp only [hmap, State.commandLine_clean_iff, h.found, true_and, Statement.command.injEq,
      forall_eq']
    have hsize := ht.mem_commandSizes hst
    have hpush : ∀ r, (s.add r).noteModified l.operands = { s.add r with
        modified :=
          s.modified ++
            if (Layout.relocatable == .relocatable && Addressing.ofOperands l.operands == .direct) =
              true
          then [s.counter] else [] } := by
      intro r
      unfold State.noteModified
      by_cases hd : Addressing.ofOperands l.operands = .direct <;> simp [hd, State.add]
    constructor
    · rintro ⟨s₁, ⟨hc, ⟨f, hf⟩, r, hr, rfl⟩, rfl⟩
      obtain ⟨hadm, hnext⟩ := (commandProblems_eq_nil_iff hsize _ _ _).1 hc.1
      have hlegible : ∀ o ∈ l.operands, o.Legible := by
        by_contra hno
        obtain ⟨x, hx⟩ :=
          Field.pending_error (FieldWidth.ofResolved? op.size l.operands)
            (s.scope (s.counter + op.size)) hadm hno
        exact absurd (hf.symm.trans hx) nofun
      rw [State.fill_code h.ledger.addressIn_eq h.labels hadm hlegible hnext] at hr
      cases hr
      exact ⟨hc, hlegible, by rw [hpush]⟩
    · rintro ⟨hc, hlegible, rfl⟩
      obtain ⟨hadm, hnext⟩ := (commandProblems_eq_nil_iff hsize _ _ _).1 hc.1
      exact ⟨_, ⟨hc, Field.pending_isOk (h.knows _) hlegible _, _,
        State.fill_code h.ledger.addressIn_eq h.labels hadm hlegible hnext _, rfl⟩, by rw [hpush]⟩
  | _ =>
    simp only [Except.ok.injEq, false_and, iff_false, not_and]
    rintro rfl
    simp [State.report]

theorem State.endLine_eq {n : Nat} (h : s.endLine n l = .ok s') :
    ∃ qs drafts, s' = { s.report n qs with ended := true, drafts } := by
  unfold State.endLine at h
  cases hd : s.drafts with
  | nil => simp [hd] at h
  | cons r rs =>
    simp only [hd, Except.ok.injEq] at h
    exact ⟨_, _, h.symm⟩

theorem State.noteModified_eq (s : State) (ops : List Operand) :
    ∃ modified, s.noteModified ops = { s with modified } := by
  unfold noteModified
  split <;> exact ⟨_, rfl⟩

theorem State.frame_of_bodyLine {stmt : Statement} {n : Nat} (h : s.bodyLine use stmt n l = .ok s')
    (hf : s'.found = []) :
    s.found = [] ∧ s'.started = s.started ∧ (stmt ≠ .finish → s'.ended = s.ended) ∧
      (stmt = .finish → s'.ended = true) := by
  unfold bodyLine at h
  split at h
  · obtain ⟨qs, drafts, rfl⟩ := endLine_eq h
    exact ⟨(List.append_eq_nil_iff.1 hf).1, rfl, fun h => absurd rfl h, fun _ => rfl⟩
  · obtain ⟨s₁, hs, rfl⟩ := (map_eq_ok_iff _ _ _).1 h
    obtain ⟨hc, -, rfl⟩ := (storageLine_clean_iff _ n l).1 ⟨hs, hf⟩
    exact ⟨hc, rfl, fun _ => rfl, nofun⟩
  · obtain ⟨s₁, hs, rfl⟩ := (map_eq_ok_iff _ _ _).1 h
    obtain ⟨hc, -, -, r, -, rfl⟩ := (commandLine_clean_iff _ n l).1 ⟨hs, hf⟩
    obtain ⟨modified, hm⟩ := noteModified_eq (s.add r) l.operands
    exact ⟨hc, by rw [hm]; rfl, fun _ => by rw [hm]; rfl, nofun⟩
  · cases h
    simp [report] at hf

theorem State.line_eq (hl : l.mnemonic ≠ "START") (n : Nat) :
    s.line table use n l =
      match (s.expectStarted n).noteLabel n l with
      | .error x => .error x
      | .ok s' => s'.bodyLine use (Statement.ofMnemonic .relocatable table l.mnemonic) n l := by
  rw [State.line, takeIn_of_ne_start (mt (Statement.ofMnemonic_eq_start_iff _ _ _).1 hl)]
  cases (s.expectStarted n).noteLabel n l <;> rfl

theorem Stage.expectStarted (h : Stage table use first once ps a ρ s) (n : Nat) :
    s.expectStarted n = s := if_pos h.started

/-- What a line that leaves no problem does: its label is met, and then the rest of it is taken
in. -/
theorem Stage.line_cases (ht : table.Sized .relocatable) (h : Stage table use first once ps a ρ s)
    (hl : l.mnemonic ≠ "START") (hnew : once → Fresh ρ l) {n : Nat}
    (hs : s.line table use n l = .ok s') (hf : s'.found = []) :
    l.LabelFits a ∧ Vacant ρ l ∧ ∃ s₁, Stage table use first once ps a (labelled ρ a l) s₁ ∧
      s₁.bodyLine use (Statement.ofMnemonic .relocatable table l.mnemonic) n l = .ok s' := by
  rw [State.line_eq hl, h.expectStarted] at hs
  cases hn : s.noteLabel n l with
  | error x => simp [hn] at hs
  | ok s₁ =>
    simp only [hn] at hs
    obtain ⟨hfit, hvacant⟩ := h.of_noteLabel hn (State.frame_of_bodyLine hs hf).1
    obtain ⟨s₂, hn₂, hstage⟩ := h.noteLabel ht n hnew hvacant hfit
    obtain rfl : s₁ = s₂ := by simpa [hn] using hn₂
    exact ⟨hfit, hvacant, s₁, hstage, hs⟩

/-- What the pass asks of a line of the body. -/
structure Placeable (table : OpTable) (use : NameUse) (a : Int) (known : String → Option Int)
    (l : Line) : Prop where
  vacant : Vacant known l
  label : l.LabelFits a
  fits : l.Fits .relocatable table use a
  legible : l.Legible .relocatable table

theorem Stage.line_clean_iff (ht : table.Sized .relocatable)
    (h : Stage table use first once ps a ρ s) (hl : l.mnemonic ≠ "START" ∧ l.mnemonic ≠ "END")
    (hnew : once → Fresh ρ l) (n : Nat) :
    (∃ s', s.line table use n l = .ok s' ∧ s'.found = []) ↔ Placeable table use a ρ l := by
  constructor
  · rintro ⟨s', hs, hf⟩
    obtain ⟨hlab, hvacant, s₁, hstage, hbody⟩ := h.line_cases ht hl.1 hnew hs hf
    obtain ⟨hfit, hlegible, -⟩ := (hstage.bodyLine_clean_iff ht hl n rfl).1 ⟨hbody, hf⟩
    exact ⟨hvacant, hlab, hfit, hlegible⟩
  · rintro ⟨hvacant, hlab, hfit, hlegible⟩
    obtain ⟨s₁, hn, hstage⟩ := h.noteLabel ht n hnew hvacant hlab
    obtain ⟨hbody, hf⟩ := (hstage.bodyLine_clean_iff ht hl n rfl).2 ⟨hfit, hlegible, rfl⟩
    refine ⟨_, ?_, hf⟩
    rw [State.line_eq hl.1, h.expectStarted, hn]
    exact hbody

/-- The invariant carries over from line to line. -/
theorem Stage.line (ht : table.Sized .relocatable) (h : Stage table use first once ps a ρ s)
    (hl : l.mnemonic ≠ "START" ∧ l.mnemonic ≠ "END") (hnew : once → Fresh ρ l) {n : Nat}
    (hs : s.line table use n l = .ok s') (hf : s'.found = []) :
    Stage table use first once (ps ++ [(⟨a, l, none⟩, l.extent .relocatable table)])
      (a + l.extent .relocatable table) (labelled ρ a l) s' := by
  obtain ⟨-, -, s₁, hstage, hbody⟩ := h.line_cases ht hl.1 hnew hs hf
  obtain ⟨hfit, hlegible, rfl⟩ := (hstage.bodyLine_clean_iff ht hl n rfl).1 ⟨hbody, hf⟩
  exact hstage.push ht rfl hfit hlegible

/-! ## What is shown -/

theorem record_draftOf (ht : table.Sized .relocatable) {p : Row × Int}
    (hp : p.1.line.Fits .relocatable table use p.1.address ∧ p.1.line.Legible .relocatable table ∧
      p.2 = p.1.line.extent .relocatable table) :
    (draftOf table ρ p).record dialect =
      .ok (recordOf .relocatable table p ((fieldOf .relocatable table ρ p).getD "")) := by
  obtain ⟨hfit, hl, hext⟩ := hp
  rcases hfit.cases with ⟨kind, al, hk, -⟩ | ⟨op, hop, -⟩
  · simp only [draftOf, recordOf, hk]
    cases kind.digits? p.1.line.operands <;> rfl
  · have hadm := (admitted_of_fits ht hop hfit).1
    have hsize : p.2 = op.size := by rw [hext, Line.extent, hop]
    simp only [draftOf, recordOf, fieldOf, hop, hsize]
    exact Draft.record_settled rfl (by decide) hadm (hl op hop) _ _ _

/-- Every draft of a line gives a record. -/
theorem Stage.exists_records (ht : table.Sized .relocatable)
    (h : Stage table use first once ps a ρ s) {rs : List Draft}
    (hrs : List.Forall₂ (Drafted table once ρ) ps rs) :
    ∃ os, List.Forall₂ (fun r o => r.record dialect = .ok o) rs os ∧
      (once → os = ps.map fun p =>
        recordOf .relocatable table p ((fieldOf .relocatable table ρ p).getD "")) := by
  have hlines := h.lines
  clear h
  induction hrs with
  | nil => exact ⟨[], .nil, fun _ => rfl⟩
  | @cons p r ps rs hr hrs ih =>
    obtain ⟨os, hos, hlatest⟩ := ih fun q hq => hlines q (List.mem_cons_of_mem _ hq)
    obtain ⟨⟨σ, hσ, -⟩, honce⟩ := hr
    have hrecord : ∀ σ, (draftOf table σ p).record dialect = .ok _ :=
      fun σ => record_draftOf ht (hlines p List.mem_cons_self)
    refine ⟨_ :: os, .cons (hσ ▸ hrecord σ) hos, fun h => ?_⟩
    have heq : draftOf table σ p = draftOf table ρ p := hσ.symm.trans (honce h)
    rw [List.map_cons, hlatest h, Except.ok.inj ((hrecord σ).symm.trans (heq ▸ hrecord ρ))]

theorem Stage.watched_iff (ht : table.Sized .relocatable) (h : Stage table use first once ps a ρ s)
    (hl : l.mnemonic ≠ "START" ∧ l.mnemonic ≠ "END") (hnew : once → Fresh ρ l) (n : Nat) :
    ((pass table use).watched s n l = .ok s' ∧ s'.found = []) ↔
      (s.line table use n l = .ok s' ∧ s'.found = []) := by
  rw [Pass.watched_eq_ok_iff]
  constructor
  · rintro ⟨⟨hs, -⟩, hf⟩
    exact ⟨hs, hf⟩
  · rintro ⟨hs, hf⟩
    refine ⟨⟨hs, fun _ => ?_⟩, hf⟩
    have hstage := h.line ht hl hnew hs hf
    obtain ⟨rs, hrs, hdrafted⟩ := hstage.drafts
    obtain ⟨os, hos, -⟩ := hstage.exists_records ht hdrafted
    obtain ⟨os, hos⟩ : ∃ os, Draft.records dialect s'.drafts = .ok os :=
      ⟨_, by rw [hrs]; exact Draft.records_eq_ok_iff.2 (.cons rfl hos)⟩
    exact ⟨_, by simp only [pass, State.view, hos, map_ok]; rfl⟩

theorem pass_watched_of_frame (hl : l.mnemonic = "START" ∨ l.mnemonic = "END") (n : Nat) :
    (pass table use).watched s n l = s.line table use n l :=
  Pass.watched_of_not_shows _ (showsAfter_eq_false table hl) s n

/-! ## Lines of any kind -/

namespace State

theorem notes_noteLabel {n : Nat} (h : (s.expectStarted n).noteLabel n l = .ok s') :
    s.Notes n s'.toFlatFrame := by
  by_cases hs : s.started = true
  · rw [expectStarted, if_pos hs] at h
    obtain ⟨qs, names, waiting, drafts, hkeys, rfl⟩ := noteLabel_eq h
    exact ⟨⟨qs, rfl⟩, by simp [hs], hkeys⟩
  · rw [expectStarted, if_neg hs] at h
    obtain ⟨qs, names, waiting, drafts, hkeys, rfl⟩ := noteLabel_eq h
    refine ⟨⟨.beforeStart :: qs, ?_⟩, by simp [report], hkeys⟩
    simp [Frame.tell, report, Site.report]

theorem grows_bodyLine {stmt : Statement} {n : Nat} (h : s.bodyLine use stmt n l = .ok s') :
    s.Grows n s'.toFlatFrame := by
  unfold bodyLine at h
  split at h
  · obtain ⟨qs, drafts, rfl⟩ := endLine_eq h
    exact ⟨List.prefix_rfl, .report _ _ _⟩
  · obtain ⟨s₁, hs₁, rfl⟩ := (map_eq_ok_iff _ _ _).1 h
    refine FlatFrame.Grows.trans ?_ (s₁.grows_await n _ _ l)
    unfold storageLine at hs₁
    split at hs₁
    · cases hs₁
      exact ⟨List.prefix_rfl, .report _ _ _⟩
    · obtain ⟨ps, -, rfl⟩ := (map_eq_ok_iff _ _ _).1 hs₁
      exact ⟨List.prefix_rfl, .report _ _ _⟩
  · obtain ⟨s₁, hs₁, rfl⟩ := (map_eq_ok_iff _ _ _).1 h
    refine FlatFrame.Grows.trans ?_ (s₁.grows_await n _ _ l)
    unfold commandLine at hs₁
    simp only at hs₁
    split at hs₁
    · cases hs₁
    · split at hs₁
      · cases hs₁
      · obtain ⟨r, -, rfl⟩ := (map_eq_ok_iff _ _ _).1 hs₁
        obtain ⟨modified, hm⟩ := noteModified_eq ((s.report n _).add r) l.operands
        rw [hm]
        exact ⟨List.prefix_rfl, .report _ _ _⟩
  · cases h
    refine FlatFrame.Grows.trans ?_ (FlatFrame.grows_await _ n _ _ l)
    exact ⟨List.prefix_rfl, .report _ _ _⟩

theorem grows_line {n : Nat} (h : s.line table use n l = .ok s') : s.Grows n s'.toFlatFrame :=
  rel_of_takeIn (R := fun s s' : State => s.Grows n s'.toFlatFrame) .trans
    ⟨List.prefix_rfl, s.adds_commence _ n l⟩ (fun h => (notes_noteLabel h).grows) grows_bodyLine h

end State

/-! ## The frame of a program -/

namespace State

theorem line_start (hl : l.mnemonic = "START") (n : Nat) :
    s.line table use n l = .ok (s.startLine n l) := by
  rw [line, (Statement.ofMnemonic_eq_start_iff _ _ _).2 hl]
  rfl

/-- The state after a start directive that nothing is wrong with. -/
def opened (first : Line) : State :=
  ⟨⟨{ Frame.initial (Layout.relocatable.load first) with started := true }, ∅, ∅⟩, [],
    [.header first.label (Layout.relocatable.load first) none]⟩

theorem startLine_start (h : start.Commences .relocatable first) (n : Nat) :
    start.startLine n first = opened first := by
  have hload : start.load first = .initial (Layout.relocatable.load first) :=
    Frame.load_initial .relocatable first
  rw [startLine, h.commence, hload]
  rfl

theorem stepping (table : OpTable) (use : NameUse) :
    Stepping (line table use) (·.started) (·.ended) (fun s => s.found = []) :=
  .of_takeIn (fun s : State => s.toFrame) .relocatable table (fun _ _ _ => rfl)
    (fun h => (notes_noteLabel h).clean) frame_of_bodyLine

end State

/-! ## Programs without repeated labels -/

/-- The lines up to the first end directive. -/
def upToEnd : List Line → List Line
  | [] => []
  | l :: ls => if l.mnemonic = "END" then [l] else l :: upToEnd ls

/-- No two lines of a program, start directives apart, have the same label. -/
def DistinctLabels (program : List Line) : Prop :=
  (((upToEnd program).filter (·.mnemonic ≠ "START")).filterMap Line.name?).Nodup

instance (program : List Line) : Decidable (DistinctLabels program) :=
  inferInstanceAs (Decidable (List.Nodup _))

theorem upToEnd_append {body : List Line} (hb : ∀ l ∈ body, l.mnemonic ≠ "END") {last : Line}
    (hl : last.mnemonic = "END") (rest : List Line) :
    upToEnd (body ++ last :: rest) = body ++ [last] := by
  induction body with
  | nil => simp [upToEnd, hl]
  | cons l body ih =>
    rw [List.cons_append, upToEnd, if_neg (hb l List.mem_cons_self),
      ih fun k hk => hb k (List.mem_cons_of_mem _ hk)]
    rfl

theorem DistinctLabels.nodup {body : List Line} {last : Line} {rest : List Line}
    (h : DistinctLabels (first :: (body ++ last :: rest))) (hfirst : first.mnemonic = "START")
    (hb : ∀ l ∈ body, l.mnemonic ≠ "START" ∧ l.mnemonic ≠ "END") (hl : last.mnemonic = "END") :
    ((body ++ [last]).filterMap Line.name?).Nodup := by
  have hcut : upToEnd (first :: (body ++ last :: rest)) = first :: (body ++ [last]) := by
    rw [upToEnd, if_neg (by simp [hfirst]), upToEnd_append (fun l hl => (hb l hl).2) hl]
  have hkeep : (first :: (body ++ [last])).filter (·.mnemonic ≠ "START") = body ++ [last] := by
    rw [List.filter_cons_of_neg (by simp [hfirst]), List.filter_eq_self]
    intro l hmem
    rcases List.mem_append.1 hmem with hmem | hmem
    · simpa using (hb l hmem).1
    · rw [List.mem_singleton.1 hmem]
      simp [hl]
  rwa [DistinctLabels, hcut, hkeep] at h

theorem allAlong_fresh {known : String → Option Int} {ls : List Line}
    (hk : once → ∀ l ∈ ls, Fresh known l) (h : once → (ls.filterMap Line.name?).Nodup) :
    AllAlong .relocatable table (fun _ known l => once → Fresh known l) a known ls := by
  induction ls generalizing a known with
  | nil => trivial
  | cons l ls ih =>
    refine ⟨fun honce => hk honce l List.mem_cons_self,
      ih (fun honce k hmem x hx => ?_) fun honce => ?_⟩
    · have hknown := hk honce k (List.mem_cons_of_mem _ hmem) x hx
      have hne : l.name? ≠ some x := by
        intro hl
        have hnodup := h honce
        rw [List.filterMap_cons_some hl, List.nodup_cons] at hnodup
        exact hnodup.1 (List.mem_filterMap.2 ⟨k, hmem, hx⟩)
      rw [labelled, if_neg hne, hknown]
    · exact (h honce).sublist ((List.sublist_cons_self l ls).filterMap _)

theorem fresh_last {body : List Line} {last : Line}
    (h : ((body ++ [last]).filterMap Line.name?).Nodup) :
    Fresh (addressOf ((placed .relocatable table none a body).map (·.1))) last := by
  intro x hx
  rw [addressOf_eq_none_iff]
  intro r hr hrx
  have hline : r.line ∈ body := by
    obtain ⟨p, hp, rfl⟩ := List.mem_map.1 hr
    rw [← placed_map_line .relocatable table none a body]
    exact List.mem_map_of_mem hp
  rw [List.filterMap_append, List.nodup_append] at h
  exact h.2.2 x (List.mem_filterMap.2 ⟨_, hline, hrx⟩) x (by simp [hx]) rfl

/-! ## Whole programs -/

/-- The invariant holds after a start directive. -/
theorem Stage.start (table : OpTable) (use : NameUse) (first : Line) (once : Prop) :
    Stage table use first once [] (Layout.relocatable.load first) (fun _ => none) (.opened first) :=
  ⟨rfl, rfl, rfl, rfl, rfl, .empty, ⟨[], rfl, .nil⟩, rfl, by simp, nofun⟩

/-- A body leaves no problem if and only if each line can be placed. -/
theorem Stage.body (ht : table.Sized .relocatable)
    (h : Stage table use first once [] a (fun _ => none) s) (n : Nat) {body : List Line}
    (hb : ∀ l ∈ body, l.mnemonic ≠ "START" ∧ l.mnemonic ≠ "END")
    (hnew : AllAlong .relocatable table (fun _ known l => once → Fresh known l) a
      (fun _ => none) body) :
    ((∃ s', CleanSteps (pass table use).watched (fun s => s.found = []) s n body s') ↔
      AllAlong .relocatable table (Placeable table use) a (fun _ => none) body) ∧
    ∀ s', CleanSteps (pass table use).watched (fun s => s.found = []) s n body s' →
      Stage table use first once (placed .relocatable table none a body)
        (a + extentOf .relocatable table body)
          (addressOf ((placed .relocatable table none a body).map (·.1))) s' := by
  refine cleanSteps_iff_allAlong
    (fun ps a s => Stage table use first once ps a (addressOf (ps.map (·.1))) s)
      (fun _ known l => once → Fresh known l) _ ?_ ?_ h n hb hnew
  · intro ps a s n l hs hfresh hl
    simp only [hs.watched_iff ht hl hfresh]
    exact hs.line_clean_iff ht hl hfresh n
  · intro ps a s n l s' hs hfresh hl hstep hc
    obtain ⟨hstep, hc⟩ := (hs.watched_iff ht hl hfresh n).1 ⟨hstep, hc⟩
    rw [List.map_append]
    exact (addressOf_concat _ _).symm ▸ hs.line ht hl hfresh hstep hc

/-- The drafts behind the end directive, given those of the lines. -/
def finalDrafts (table : OpTable) (first last : Line) (ps : List (Row × Int)) (a : Int)
    (rs : List Draft) : List Draft :=
  .header first.label (Layout.relocatable.load first) (some (a - Layout.relocatable.load first)) ::
    (rs ++ (ps.flatMap (modifiedIn .relocatable table)).map (.modification · none) ++
      [.finish (flatEntry .relocatable first last)])

/-- An end directive gives the header its length and adds the modifications and the entry address,
which has to be an address of the program. -/
theorem Stage.endLine_clean_iff (h : Stage table use first once ps a ρ s) {rs : List Draft}
    (hrs : s.drafts = .header first.label (Layout.relocatable.load first) none :: rs) (n : Nat) :
    (s.endLine n l = .ok s' ∧ s'.found = []) ↔ isOptionalNumber l.operands = true ∧
      flatEntry .relocatable first l ∈
        (Layout.relocatable.load first :: ps.map fun p => p.1.address + p.2) ∧
      s' = { s with ended := true, drafts := finalDrafts table first l ps a rs } := by
  have hentry : s.entryPoint l = flatEntry .relocatable first l := by
    rw [State.entryPoint, h.origin, flatEntry]
  simp only [State.endLine, State.report, hrs, h.modified, h.origin, h.counter, h.found, hentry,
    h.visited, List.nil_append, Except.ok.injEq]
  constructor
  · rintro ⟨rfl, hf⟩
    have hnil : ∀ (c : Prop) [Decidable c] (q : Problem), (if c then [] else [q]) = [] → c := by
      intro c _ q hq
      by_contra hc
      simp [hc] at hq
    obtain ⟨hop, hmem⟩ := List.append_eq_nil_iff.1 ((Site.report_eq_nil_iff _ _).1 hf)
    refine ⟨hnil _ _ hop, List.contains_iff_mem.1 (hnil _ _ hmem), ?_⟩
    simp only [hop, hmem]
    simp [finalDrafts, Draft.setLength, Site.report]
  · rintro ⟨hop, hmem, rfl⟩
    have hcontains := List.contains_iff_mem.2 hmem
    exact ⟨by simp only [hop, hcontains]; simp [finalDrafts, Draft.setLength, Site.report], rfl⟩

theorem Stage.records_finalDrafts (ht : table.Sized .relocatable) {body : List Line} {last : Line}
    (h : Stage table use first once (flatRows .relocatable table first body)
      (flatEnd .relocatable table first body) (flatLabels .relocatable table first body last) s)
        {rs : List Draft}
    (hrs : List.Forall₂ (Drafted table once (flatLabels .relocatable table first body last))
      (flatRows .relocatable table first body) rs) :
    ∃ os, Draft.records dialect
        (finalDrafts table first last (flatRows .relocatable table first body)
          (flatEnd .relocatable table first body) rs) = .ok os ∧
      (once → os = flatRecords .relocatable table first body last) := by
  obtain ⟨os, hos, honce⟩ := h.exists_records ht hrs
  have hmodified : ∀ ms : List Int, List.Forall₂ (fun (r : Draft) o => r.record dialect = .ok o)
      (ms.map (.modification · none)) (ms.map (.modification · none)) := by
    intro ms
    rw [List.forall₂_map_left_iff, List.forall₂_map_right_iff, List.forall₂_same]
    exact fun _ _ => rfl
  refine ⟨_,
    Draft.records_eq_ok_iff.2
      (.cons rfl (List.rel_append (List.rel_append hos (hmodified _)) (.cons rfl .nil))),
      fun h => ?_⟩
  rw [honce h]
  rfl

theorem view_close_iff (s : State) (v : Snapshot) (rs : List ObjectRecord) :
    (s.close.view = .ok v ∧ v.records = some rs) ↔
      s.found = [] ∧ s.started = true ∧ s.ended = true ∧ InMemory s.counter ∧ s.waiting.keys = [] ∧
        Draft.records dialect s.drafts = .ok rs ∧ v = ⟨some rs, .flat s.names, []⟩ := by
  have hfound : s.close.found = [] ↔
      s.found = [] ∧ s.started = true ∧ s.ended = true ∧ InMemory s.counter ∧
      s.waiting.keys = [] := by
    simp [State.close]
  have hview : s.close.view = (Draft.records dialect s.drafts).map fun rs =>
      ⟨if s.close.found.isEmpty then some rs else none, .flat s.names, s.close.found⟩ := rfl
  rw [hview, map_eq_ok_iff]
  constructor
  · rintro ⟨⟨os, hos, rfl⟩, hr⟩
    by_cases hc : s.close.found = []
    · obtain ⟨hf, hst, hend, hm, hopen⟩ := hfound.1 hc
      obtain rfl : os = rs := by simpa [hc] using hr
      exact ⟨hf, hst, hend, hm, hopen, hos, by simp [hc]⟩
    · simp [hc] at hr
  · rintro ⟨hf, hst, hend, hm, hopen, hos, rfl⟩
    have hc := hfound.2 ⟨hf, hst, hend, hm, hopen⟩
    exact ⟨⟨rs, hos, by simp [hc]⟩, rfl⟩

theorem records_of_found {program : List Line} {v : Snapshot}
    (hfault : (trace table use program).fault = none)
    (hlast : (trace table use program).snapshots.getLast? = some v) (hfound : v.found = []) :
    ∃ rs, v.records = some rs := by
  obtain ⟨s', -, hview⟩ := ((pass table use).trace_getLast?_eq_iff _ _ _ _).1 ⟨hfault, hlast⟩
  obtain ⟨os, -, rfl⟩ := (map_eq_ok_iff _ _ _).1 hview
  simp only at hfound
  exact ⟨os, by simp [hfound]⟩

/-- A program that the pass accepts. -/
structure Acceptable (table : OpTable) (use : NameUse) (first : Line) (body : List Line)
    (last : Line) : Prop where
  start : first.mnemonic = "START"
  start_operands : isOptionalNumber first.operands = true
  start_label : first.name?.isSome = true
  load : InMemory (Layout.relocatable.load first)
  load_layout : Layout.relocatable.loadProblems (Layout.relocatable.load first) = []
  body_fits :
    AllAlong .relocatable table (Placeable table use) (Layout.relocatable.load first)
      (fun _ => none) body
  finish : last.mnemonic = "END"
  finish_operands : isOptionalNumber last.operands = true
  finish_label : Vacant (addressOf ((flatRows .relocatable table first body).map (·.1))) last
  finish_inMemory : InMemory (flatEnd .relocatable table first body)
  closed : Closed (flatLabels .relocatable table first body last)
    (flatRows .relocatable table first body)
  entry : flatEntry .relocatable first last ∈ flatAddresses .relocatable table first body

theorem Acceptable.not_frame {body : List Line} {last : Line}
    (h : Acceptable table use first body last) :
    ∀ l ∈ body, l.mnemonic ≠ "START" ∧ l.mnemonic ≠ "END" :=
  allAlong_line_iff.1 (h.body_fits.imp fun _ _ _ hl => hl.fits.not_frame)

/-- The symbols of a program that is accepted are the labels of its lines, and its records are those
of the program if no label is repeated. -/
theorem acceptable_of_trace (ht : table.Sized .relocatable) {program : List Line} {v : Snapshot}
    {rs : List ObjectRecord} (hfault : (trace table use program).fault = none)
    (hlast : (trace table use program).snapshots.getLast? = some v) (hrs : v.records = some rs) :
    ∃ first body last rest, program = first :: (body ++ last :: rest) ∧
      Acceptable table use first body last ∧
      (DistinctLabels program → rs = flatRecords .relocatable table first body last) ∧
      ∃ names, v.symbols = .flat names ∧
      ∀ x, names.get? x = (flatLabels .relocatable table first body last x).map some := by
  obtain ⟨s', hrun, hview⟩ := ((pass table use).trace_getLast?_eq_iff _ _ _ _).1 ⟨hfault, hlast⟩
  obtain ⟨hf, -, hend, hm, hopen, hrecords, rfl⟩ := (view_close_iff s' v rs).1 ⟨hview, hrs⟩
  obtain ⟨first, body, last, rest, s₀, s₁, rfl, hfirst, hb, hl, hstart, hc₀, hsteps, hfin, hc⟩ :=
    (runLines_program_iff ((pass table use).stepping_watched (State.stepping table use)) rfl rfl 1
      program).1 ⟨hrun, hf, hend⟩
  rw [pass_watched_of_frame (.inl hfirst)] at hstart
  rw [pass_watched_of_frame (.inr hl)] at hfin
  rw [State.line_start hfirst] at hstart
  obtain rfl := Except.ok.inj hstart
  have hcommences := (Frame.found_commence_eq_nil_iff _).1 hc₀
  obtain ⟨hop, hname, hload, hlayout⟩ := (Frame.commences_initial_iff .relocatable).1 hcommences
  rw [State.startLine_start hcommences] at hsteps
  obtain ⟨hiff, hinv⟩ :=
    (Stage.start table use first (DistinctLabels (first :: (body ++ last :: rest)))).body ht 2 hb
      (allAlong_fresh (fun _ _ _ _ _ => rfl) fun hd =>
      (hd.nodup hfirst hb hl).sublist ((List.sublist_append_left body _).filterMap _))
  obtain ⟨hlab, hvacant, s₂, hstage, hbl⟩ := (hinv s₁ hsteps).line_cases ht (by simp [hl])
    (fun hd => fresh_last (hd.nodup hfirst hb hl)) hfin hc
  rw [(Statement.ofMnemonic_eq_finish_iff _ _ _).2 hl] at hbl
  obtain ⟨ds, hds, hdrafted⟩ := hstage.drafts
  obtain ⟨hop', hentry, rfl⟩ := (hstage.endLine_clean_iff hds _).1 ⟨hbl, hc⟩
  have hend' : InMemory (flatEnd .relocatable table first body) := by
    rw [flatEnd, ← hstage.counter]; exact hm
  have hclosed :
      Closed (flatLabels .relocatable table first body last)
        (flatRows .relocatable table first body) :=
    hstage.ledger.closed_iff_waiting.2 hopen
  refine ⟨first, body, last, rest, rfl,
    ⟨hfirst, hop, hname, hload, hlayout, hiff.1 ⟨s₁, hsteps⟩, hl, hop', hvacant, hend', hclosed,
      hentry⟩, fun hd => ?_, _, rfl, fun x => (hstage.ledger.get?_of_closed hclosed x).1⟩
  obtain ⟨os, hos, honce⟩ := hstage.records_finalDrafts ht hdrafted
  rw [← honce hd]
  exact Except.ok.inj (hrecords.symm.trans hos)

theorem trace_of_acceptable (ht : table.Sized .relocatable) {first : Line} {body : List Line}
    {last : Line} (rest : List Line) (h : Acceptable table use first body last) :
    ∃ v, (trace table use (first :: (body ++ last :: rest))).AcceptedWith v := by
  have hstart : State.start.line table use 1 first = .ok (.opened first) := by
    rw [State.line_start h.start, State.startLine_start]
    exact (Frame.commences_initial_iff .relocatable).2 ⟨h.start_operands, h.start_label, h.load,
      h.load_layout⟩
  obtain ⟨hiff, hinv⟩ :=
    (Stage.start table use first False).body ht 2 h.not_frame
      (h.body_fits.imp fun _ _ _ _ hfalse => hfalse.elim)
  obtain ⟨s₁, hsteps⟩ := hiff.2 h.body_fits
  have hstage₁ := hinv s₁ hsteps
  obtain ⟨s₂, hn, hstage₂⟩ :=
    hstage₁.noteLabel ht (2 + body.length) False.elim h.finish_label fun _ => h.finish_inMemory
  obtain ⟨ds, hds, hdrafted⟩ := hstage₂.drafts
  obtain ⟨hbl, hc⟩ :=
    (hstage₂.endLine_clean_iff hds (2 + body.length)).2 ⟨h.finish_operands, h.entry, rfl⟩
  have hfin : s₁.line table use (2 + body.length) last = s₂.endLine (2 + body.length) last := by
    rw [State.line_eq (by simp [h.finish]), hstage₁.expectStarted, hn,
      (Statement.ofMnemonic_eq_finish_iff _ _ _).2 h.finish]
    rfl
  obtain ⟨hrun, hf, hend⟩ :=
    (runLines_program_iff ((pass table use).stepping_watched (State.stepping table use)) rfl rfl 1
      _).2 ⟨first, body, last, rest, _, s₁, rfl, h.start, h.not_frame, h.finish,
        (pass_watched_of_frame (.inl h.start) 1).trans hstart, rfl, hsteps,
      (pass_watched_of_frame (.inr h.finish) _).trans (hfin.trans hbl), hc⟩
  have hm : InMemory s₂.counter := by rw [hstage₂.counter]; exact h.finish_inMemory
  obtain ⟨os, hos, -⟩ := hstage₂.records_finalDrafts ht hdrafted
  have hview := (view_close_iff _ _ _).2
    ⟨hf, hstage₂.started, hend, hm, hstage₂.ledger.closed_iff_waiting.1 h.closed, hos, rfl⟩
  obtain ⟨hfault, hlast⟩ :=
    ((pass table use).trace_getLast?_eq_iff .start 1 _ _).2 ⟨_, hrun, hview.1⟩
  exact ⟨_, hfault, hlast, rfl⟩

/-! ## Programs without repeated labels, in one pass and in two -/

/-- A program without repeated labels that the pass accepts is one that nothing is wrong with, and
its records are those of the program. -/
theorem of_trace (ht : table.Sized .relocatable) {program : List Line} (hd : DistinctLabels program)
    {v : Snapshot} {rs : List ObjectRecord} (hfault : (trace table use program).fault = none)
    (hlast : (trace table use program).snapshots.getLast? = some v) (hrs : v.records = some rs) :
    ∃ first body last rest, program = first :: (body ++ last :: rest) ∧
      FlatProgram .relocatable table use first body last ∧
      Resolved .relocatable table first body last ∧
      rs = flatRecords .relocatable table first body last ∧
      ∃ names, v.symbols = .flat names ∧
      ∀ x, names.get? x = (flatLabels .relocatable table first body last x).map some := by
  obtain ⟨first, body, last, rest, rfl, h, hrecords, hnames⟩ :=
    acceptable_of_trace ht hfault hlast hrs
  have hnodup := hd.nodup h.start h.not_frame h.finish
  have hfresh :
      AllAlong .relocatable table (fun _ known l => True → Fresh known l)
        (Layout.relocatable.load first) (fun _ => none) body :=
    allAlong_fresh (fun _ _ _ _ _ => rfl) fun _ =>
      hnodup.sublist ((List.sublist_append_left body _).filterMap _)
  have hbody :
      BodyFits .relocatable table use (Layout.relocatable.load first) (fun _ => none) body :=
    (allAlong_and_iff.2 ⟨hfresh, h.body_fits⟩).imp fun _ _ _ hl =>
      ⟨hl.1 trivial, hl.2.label, hl.2.fits⟩
  have hlegible : ∀ l ∈ body, l.Legible .relocatable table :=
    allAlong_line_iff.1 (h.body_fits.imp fun _ _ _ hl => hl.legible)
  exact ⟨first, body, last, rest, rfl,
    ⟨h.start, h.start_operands, h.start_label, h.load, h.load_layout, hbody, h.finish,
      h.finish_operands, fresh_last hnodup, h.finish_inMemory⟩,
      (resolved_iff ht hbody).2 ⟨hlegible, h.closed, h.entry⟩,
    hrecords hd, hnames⟩

/-- The pass accepts every program that nothing is wrong with. -/
theorem trace_of (ht : table.Sized .relocatable) {first : Line} {body : List Line} {last : Line}
    (rest : List Line) (h : FlatProgram .relocatable table use first body last)
    (hres : Resolved .relocatable table first body last) :
    ∃ v rs, (trace table use (first :: (body ++ last :: rest))).fault = none ∧
      (trace table use (first :: (body ++ last :: rest))).snapshots.getLast? = some v ∧
      v.records = some rs := by
  obtain ⟨hlegible, hclosed, hentry⟩ := (resolved_iff ht h.body_fits).1 hres
  have hplaceable :
      AllAlong .relocatable table (Placeable table use) (Layout.relocatable.load first)
        (fun _ => none) body :=
    (allAlong_and_iff.2 ⟨h.body_fits, allAlong_line_iff.2 hlegible⟩).imp fun _ _ _ hl =>
      ⟨.of_fresh hl.1.fresh, hl.1.label, hl.1.fits, hl.2⟩
  obtain ⟨v, hfault, hlast, hfound⟩ :=
    trace_of_acceptable ht rest ⟨h.start, h.start_operands, h.start_label, h.load, h.load_layout,
      hplaceable, h.finish, h.finish_operands, .of_fresh h.finish_label, h.finish_inMemory,
      hclosed, hentry⟩
  obtain ⟨rs, hrs⟩ := records_of_found hfault hlast hfound
  exact ⟨v, rs, hfault, hlast, hrs⟩

end Assembler.OnePass.Relocatable
