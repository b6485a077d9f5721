import Assembler.Proofs.BrokenFlat

/-! # Relocatable runs that break off

As in absolute programs, but the record at which a name waits has to be that of a command, since the
name is replaced in its operands, and the end directive needs a first record to hold the length.
Operands are put down with their values in decimal, so the addresses have to be kept within bounds
as well (`Within`). -/

namespace Assembler.OnePass
open Assembler
set_option autoImplicit false

variable {table : OpTable} {noted pre : List Line} {l : Line} {B : Nat}

/-- The addresses and constants of a draft are within a bound. -/
def Draft.Within (B : Nat) : Draft → Prop
  | .code a size _ ops => (a + size).natAbs ≤ B ∧ ∀ o ∈ ops, o.constant.natAbs ≤ 2 * B + 0x10000
  | .definition _ ops => ∀ o ∈ ops, o.constant.natAbs ≤ 2 * B + 0x10000
  | _ => True

theorem Draft.Within.mono {B' : Nat} {r : Draft} (h : r.Within B) (hB : B ≤ B') : r.Within B' := by
  cases r with
  | code a size byte ops => exact ⟨h.1.trans hB, fun o ho => (h.2 o ho).trans (by omega)⟩
  | definition name ops => exact fun o ho => (h o ho).trans (by omega)
  | _ => trivial

theorem addressIn_awaitAll {names : OrderedMap String (Option Int)} {waiting : Waiting}
    (place : Option Nat) (xs : List String) (y : String) :
    addressIn (awaitAll place names waiting xs).1 y = addressIn names y := by
  induction xs generalizing names waiting with
  | nil => rfl
  | cons x xs ih =>
    rw [awaitAll]
    split
    · next hopen =>
      rw [ih, addressIn, addressIn, OrderedMap.get?_insert]
      split
      · next hxy =>
        subst hxy
        unfold isOpen at hopen
        rcases hget : names.get? x with _ | _ | a <;> simp_all
      · rfl
    · exact ih

namespace Relocatable

/-- Whether a line is a command of the table. -/
def isCommand (table : OpTable) (l : Line) : Bool :=
  match Statement.ofMnemonic .relocatable table l.mnemonic with
  | .command _ => true
  | _ => false

/-- A line carries a name for the first time that a line before it waits for at a record that is not
that of a command, or an end directive finds no record at all. -/
def Halts (table : OpTable) (pre : List Line) (l : Line) : Prop :=
  (l.mnemonic ≠ "START" ∧ ∃ x, l.name? = some x ∧
    Stuck (isCommand table) .relocatable table pre x) ∨
    l.mnemonic = "END" ∧ recordLines .relocatable table pre = []

/-- The counter, the addresses of labels and the records are within a bound. -/
structure Within (B : Nat) (s : State) : Prop where
  counter : s.counter.natAbs ≤ B
  names : ∀ x a, addressIn s.names x = some a → a.natAbs ≤ B
  drafts : ∀ r ∈ s.drafts, r.Within B

theorem Within.mono {B' : Nat} {s : State} (h : Within B s) (hB : B ≤ B') : Within B' s where
  counter := h.counter.trans hB
  names x a hx := (h.names x a hx).trans hB
  drafts r hr := (h.drafts r hr).mono hB

/-- The pass after some lines, the labels of more lines being noted. -/
structure Kept (table : OpTable) (noted pre : List Line) (s : State) : Prop where
  going : s.ended = false
  kinds : s.drafts.map Draft.fills = (recordLines .relocatable table pre).map (isCommand table)
  readable : ∀ r ∈ s.drafts, r.Readable
  within : Within (bulk .relocatable table pre) s
  tables : Awaiting .relocatable table noted pre s.names s.waiting

theorem kept_start (table : OpTable) : Kept table [] [] .start where
  going := rfl
  kinds := rfl
  readable := nofun
  within := ⟨Nat.zero_le _, nofun, nofun⟩
  tables := .empty

variable {s s' : State} {n : Nat}

theorem Kept.expectStarted (h : Kept table noted pre s) (n : Nat) :
    Kept table noted pre (s.expectStarted n) := by
  unfold State.expectStarted
  split
  · exact h
  · exact ⟨h.going, h.kinds, h.readable, ⟨h.within.counter, h.within.names, h.within.drafts⟩,
      h.tables⟩

/-! ## Filling drafts -/

theorem within_of_fill (hnames : ∀ x a, addressIn s.names x = some a → a.natAbs ≤ B)
    {forgive : Fault → Bool} {r r' : Draft} (h : r.Within B)
    (hfill : r.fill forgive s.scope = .ok r') : r'.Within B := by
  have hsettled : ∀ next ops vs, next.natAbs ≤ B + 4 →
      Draft.settleAll forgive (s.scope next) ops = .ok vs →
      (∀ o ∈ ops, o.constant.natAbs ≤ 2 * B + 0x10000) →
      ∀ o ∈ vs, o.constant.natAbs ≤ 2 * B + 0x10000 := by
    intro next ops vs hnext hvs hops o ho
    rw [Draft.eq_of_settleAll (Scope.relocatable_knows s.names next) hvs, List.mem_map] at ho
    obtain ⟨op, hop, rfl⟩ := ho
    exact natAbs_constant_settled hnames hnext (hops op hop)
  unfold Draft.fill at hfill
  split at hfill
  · next a size byte ops =>
    obtain ⟨vs, hvs, rfl⟩ := (map_eq_ok_iff _ _ _).1 hfill
    exact ⟨h.1, hsettled (a + size) ops vs (h.1.trans (by omega)) hvs h.2⟩
  · next name ops =>
    obtain ⟨vs, hvs, rfl⟩ := (map_eq_ok_iff _ _ _).1 hfill
    exact hsettled Draft.definitionSize ops vs (by simp [Draft.definitionSize]) hvs h
  · cases hfill
  · cases hfill

theorem hasText_of_within {r : Draft} (h : r.Within B) (hB : ¬ vast ≤ B) : r.hasText = true := by
  have hvast := le_vast
  have hops : ∀ ops : List Operand, (∀ o ∈ ops, o.constant.natAbs ≤ 2 * B + 0x10000) →
      ops.all Operand.hasText = true :=
    fun ops hops => List.all_eq_true.2 fun o ho =>
      hasText_of_constant ((hops o ho).trans_lt (by omega))
  cases r with
  | code a size byte ops => exact hops ops h.2
  | definition name ops => exact hops ops h
  | _ => rfl

theorem takes_fill (hnames : ∀ x a, addressIn s.names x = some a → a.natAbs ≤ B) (r : Draft)
    (h : r.Readable ∧ r.Within B) :
    Takes (vast ≤ B) (r.fills = false) (fun r' => (r'.Readable ∧ r'.Within B) ∧ r'.fills = r.fills)
      (s.fill r) := by
  unfold State.fill
  cases hr : r.fill (fun _ => true) s.scope with
  | error x => exact .inr (Draft.fills_of_fill_error hr)
  | ok filled =>
    obtain ⟨hfills, hfills'⟩ := Draft.fills_of_fill hr
    have hwithin := within_of_fill hnames h.2 hr
    dsimp only
    split
    · exact ⟨by simp [hfills], ⟨h.1.fill hr, hwithin⟩, by rw [hfills, hfills']⟩
    · next htext => exact .inl ⟨rfl, by_contra fun hB => htext (hasText_of_within hwithin hB)⟩

theorem fillWaiting_eq (s : State) (x : String) : s.fillWaiting x =
    (changeAll s.fill ((s.waiting.get? x).getD []) s.drafts).map fun ds =>
      { s with drafts := ds, waiting := s.waiting.erase x } := by
  unfold State.fillWaiting
  cases hw : s.waiting.get? x with
  | none => simp [changeAll, s.waiting.erase_of_get?_eq_none hw]
  | some places => rfl

/-! ## Labels -/

/-- A label is noted unless it is stuck. -/
theorem Kept.noteLabel (h : Kept table pre pre s) (hl : l.mnemonic ≠ "START") :
    Takes (vast ≤ bulk .relocatable table pre)
      (l.mnemonic ≠ "START" ∧ ∃ x, l.name? = some x ∧
        Stuck (isCommand table) .relocatable table pre x)
      (Kept table (pre ++ [l]) pre) (s.noteLabel n l) := by
  unfold State.noteLabel
  cases hx : l.name? with
  | none =>
    exact ⟨by simp, h.going, h.kinds, h.readable, h.within,
      h.tables.skip fun y _ hy => by simp [hx] at hy⟩
  | some x =>
    dsimp only
    split
    · next htaken =>
      have hcarried := h.tables.carried_of_isTaken htaken
      refine ⟨?_, h.going, h.kinds, h.readable,
        ⟨h.within.counter, h.within.names, h.within.drafts⟩, h.tables.skip fun y _ hy => ?_⟩
      · rintro ⟨-, y, hy, hstuck⟩
        obtain rfl := Option.some.inj hy
        exact hstuck.1 hcarried
      · obtain rfl := Option.some.inj (hx.symm.trans hy)
        exact hcarried
    · rw [fillWaiting_eq]
      have hnames : ∀ y a, addressIn (s.names.insert x (some s.counter)) y = some a →
          a.natAbs ≤ bulk .relocatable table pre := by
        intro y a hy
        rw [addressIn, OrderedMap.get?_insert] at hy
        split at hy
        · obtain rfl : s.counter = a := by simpa using hy
          exact h.within.counter
        · exact h.within.names y a hy
      generalize hnamed : ({ s.report n (rangeProblems s.counter (.label x)) with
        names := s.names.insert x (some s.counter) } : State) = named
      have hfill := h.tables.fill (takes_fill (s := named) (by rw [← hnamed]; exact hnames))
        (fun r hr => ⟨h.readable r hr, h.within.drafts r hr⟩) h.kinds x
      subst hnamed
      refine (hfill.map fun rs' hrs' => ?_).congr (by simp [hl])
      obtain ⟨hrs', hkinds⟩ := hrs'
      exact ⟨h.going, hkinds, fun r hr => (hrs' r hr).1,
        ⟨h.within.counter, hnames, fun r hr => (hrs' r hr).2⟩, h.tables.note hl hx _⟩

/-! ## The lines of the body -/

/-- A line has added its record, if it leaves one, and has left alone what else counts. -/
structure Laid (table : OpTable) (B : Nat) (l : Line) (s s' : State) : Prop where
  kinds : s'.drafts.map Draft.fills =
    s.drafts.map Draft.fills ++ if leavesRecord .relocatable table l
      then [isCommand table l] else []
  readable : (∀ r ∈ s.drafts, r.Readable) → ∀ r ∈ s'.drafts, r.Readable
  within : Within (B + l.weight .relocatable table) s'
  others : s'.ended = s.ended ∧ s'.names = s.names ∧ s'.waiting = s.waiting

theorem laid_storageLine (hB : Within B s) {kind : Storage}
    (hst : Statement.ofMnemonic .relocatable table l.mnemonic = .storage kind) :
    Tells (vast ≤ l.weight .relocatable table) (Laid table B l s) (s.storageLine kind n l) := by
  have hcommand : isCommand table l = false := by rw [isCommand, hst]
  have hweight := natAbs_extent_le .relocatable table l
  have hcounter := hB.counter
  obtain ⟨hsame, hnames, hdrafts⟩ := hB.mono (Nat.le_add_right B (l.weight .relocatable table))
  unfold State.storageLine
  cases ha : kind.allot s.counter l.operands with
  | error p =>
    exact ⟨by simp [leavesRecord_of_not_allotted hst ha, State.report], id,
      ⟨hsame, hnames, hdrafts⟩, rfl, rfl, rfl⟩
  | ok a =>
    refine (tells_allotted ha).map fun ps _ => ⟨?_, fun hrs => ?_, ⟨?_, hnames, ?_⟩, rfl, rfl, rfl⟩
    · have hfills : (Draft.ofAllotment a s.counter).fills = false := by
        unfold Draft.ofAllotment
        split <;> rfl
      simp [leavesRecord_of_allotted hst ha, State.report, State.add, State.moveTo,
        hcommand, hfills]
    · exact List.forall_mem_append.2
        ⟨hrs, List.forall_mem_singleton.2 (Draft.readable_ofAllotment a s.counter)⟩
    · have hsize : a.size = l.extent .relocatable table := by
        rw [extent_of_storage hst, (Storage.allot_eq ha).1]
      change (s.counter + a.size).natAbs ≤ _
      omega
    · refine List.forall_mem_append.2 ⟨hdrafts, List.forall_mem_singleton.2 ?_⟩
      unfold Draft.ofAllotment
      split <;> trivial

theorem laid_commandLine (hB : Within B s) (use : NameUse) {op : Operation}
    (hst : Statement.ofMnemonic .relocatable table l.mnemonic = .command op)
    (hl : ∀ o ∈ l.operands, o.Legible) :
    Tells (vast ≤ B + l.weight .relocatable table) (Laid table B l s)
      (s.commandLine use op n l) := by
  have hweight := natAbs_extent_le .relocatable table l
  rw [extent_of_command hst] at hweight
  have hcounter := hB.counter
  have hgrown := hB.mono (Nat.le_add_right B (l.weight .relocatable table))
  have hnew :
      (Draft.code s.counter op.size (some (codeByte op.opcode l.operands)) l.operands).Within
        (B + l.weight .relocatable table) :=
    ⟨by omega, fun o ho => (natAbs_constant_le .relocatable table ho).trans (by omega)⟩
  have hfill :=
    takes_fill hgrown.names
      (.code s.counter op.size (some (codeByte op.opcode l.operands)) l.operands) ⟨hl, hnew⟩
  have hproblems := tells_commandProblems hst hl s.counter
  obtain ⟨field, hfield⟩ :=
    inOnePass_isOk (Scope.relocatable_knows s.names (s.counter + op.size)) hl op.size
  unfold State.commandLine
  dsimp only [State.scope, dialect]
  rw [hfield]
  cases hps : commandProblems .relocatable s.counter l.mnemonic op.size l.operands with
  | error x =>
    rw [hps] at hproblems
    exact ⟨hproblems.1, hproblems.2.trans (by omega)⟩
  | ok ps =>
    refine (hfill.tells (by simp [Draft.fills])).map fun r' hr' => ?_
    obtain ⟨⟨hreadable, hwithin⟩, hfills⟩ := hr'
    replace hfills : r'.fills = true := hfills
    have hmodified : ∀ s : State, (s.noteModified l.operands).drafts = s.drafts ∧
        (s.noteModified l.operands).ended = s.ended ∧
        (s.noteModified l.operands).names = s.names ∧
        (s.noteModified l.operands).waiting = s.waiting := by
      intro s
      unfold State.noteModified
      split <;> exact ⟨rfl, rfl, rfl, rfl⟩
    obtain ⟨hdrafts, hended, hsame, hwaiting⟩ :=
      hmodified ((s.report n (ps ++ nameUseProblems use l.operands)).add r')
    refine ⟨?_, fun hrs => ?_, ⟨?_, ?_, ?_⟩, hended, hsame, hwaiting⟩
    · rw [State.moveTo, hdrafts, leavesRecord_of_command hst, isCommand, hst]
      simp [State.add, State.report, hfills]
    · rw [State.moveTo, hdrafts]
      exact List.forall_mem_append.2 ⟨hrs, List.forall_mem_singleton.2 hreadable⟩
    · change (s.counter + op.size).natAbs ≤ _
      omega
    · rw [State.moveTo, hsame]
      exact hgrown.names
    · rw [State.moveTo, hdrafts]
      exact List.forall_mem_append.2 ⟨hgrown.drafts, List.forall_mem_singleton.2 hwithin⟩

theorem Kept.waitForAll (h : Kept table noted pre s)
    (hl : l.mnemonic ≠ "START" ∧ l.mnemonic ≠ "END")
    (hs : Laid table (bulk .relocatable table pre) l s s') :
    Kept table noted (pre ++ [l]) (s'.waitForAll l) := by
  obtain ⟨hended, hnames, hwaiting⟩ := hs.others
  have hkinds :
      s'.drafts.map Draft.fills = (recordLines .relocatable table (pre ++ [l])).map
        (isCommand table) := by
    rw [hs.kinds, h.kinds, recordLines_concat, List.map_append]
    split <;> rfl
  have hlength : s'.drafts.length = (recordLines .relocatable table (pre ++ [l])).length := by
    simpa using congrArg List.length hkinds
  have hwithin := hs.within
  rw [← bulk_concat] at hwithin
  refine ⟨hended.trans h.going, hkinds, hs.readable h.readable,
    ⟨hwithin.counter, fun x a hx => ?_, hwithin.drafts⟩, ?_⟩
  · rw [State.waitForAll, FlatFrame.await, addressIn_awaitAll] at hx
    exact hwithin.names x a hx
  · simp only [State.waitForAll, FlatFrame.await, hnames, hwaiting,
      ← awaited_eq .relocatable table hl]
    exact h.tables.await hlength

/-- The end directive is taken in if there is a record to hold the length. -/
theorem Kept.endLine {mute : Prop} (h : Kept table noted pre s) (n : Nat) (l : Line) :
    Takes mute (recordLines .relocatable table pre = []) (fun s' => (∀ r ∈ s'.drafts, r.Readable) ∧
      s'.ended = true) (s.endLine n l) := by
  have hkinds := h.kinds
  have hreadable := h.readable
  unfold State.endLine
  dsimp only
  split
  · next hnil =>
    rw [hnil] at hkinds
    exact .inr (List.map_eq_nil_iff.1 hkinds.symm)
  · next first rest hcons =>
    rw [hcons] at hreadable
    obtain ⟨hfirst, hrest⟩ := List.forall_mem_cons.1 hreadable
    refine ⟨fun hnil => by simp [hcons, hnil] at hkinds, fun r hr => ?_, rfl⟩
    simp only [List.mem_append, List.mem_cons, List.mem_map, List.not_mem_nil, or_false] at hr
    obtain ((rfl | hr) | ⟨a, -, rfl⟩) | rfl := hr
    · exact hfirst.setLength _
    · exact hrest r hr
    · trivial
    · trivial

theorem Kept.bodyLine (h : Kept table noted pre s) (use : NameUse)
    (hstart : l.mnemonic ≠ "START") (hl : ∀ o ∈ l.operands, o.Legible) :
    Takes (Overweight .relocatable table pre l)
      (l.mnemonic = "END" ∧ recordLines .relocatable table pre = [])
        (fun s' => (∀ r ∈ s'.drafts, r.Readable) ∧
          (l.mnemonic ≠ "END" → Kept table noted (pre ++ [l]) s') ∧
        (l.mnemonic = "END" → s'.ended = true))
      (s.bodyLine use (Statement.ofMnemonic .relocatable table l.mnemonic) n l) := by
  have hwait : l.mnemonic ≠ "END" → ∀ s', Laid table (bulk .relocatable table pre) l s s' →
      (∀ r ∈ (s'.waitForAll l).drafts, r.Readable) ∧
      (l.mnemonic ≠ "END" → Kept table noted (pre ++ [l]) (s'.waitForAll l)) ∧
        (l.mnemonic = "END" → (s'.waitForAll l).ended = true) := by
    intro hend s' hlaid
    have hkept := h.waitForAll ⟨hstart, hend⟩ hlaid
    exact ⟨hkept.readable, fun _ => hkept, fun heq => absurd heq hend⟩
  have hoverweight : vast ≤ bulk .relocatable table pre + l.weight .relocatable table →
      Overweight .relocatable table pre l := by
    rw [Overweight, bulk_concat]
    exact id
  obtain ⟨hsection, hexport, himport⟩ :=
    ofMnemonic_flat table (show Layout.relocatable ≠ .sectioned by decide) l.mnemonic
  by_cases hend : l.mnemonic = "END"
  · rw [(Statement.ofMnemonic_eq_finish_iff .relocatable table _).2 hend]
    refine ((h.endLine n l).congr (and_iff_right hend).symm).imp fun s' hs' => ?_
    obtain ⟨hreadable, hended⟩ := hs'
    exact ⟨hreadable, fun hne => absurd hend hne, fun _ => hended⟩
  · have hno : ¬ (l.mnemonic = "END" ∧ recordLines .relocatable table pre = []) :=
      fun hhalts => hend hhalts.1
    unfold State.bodyLine
    cases hst : Statement.ofMnemonic .relocatable table l.mnemonic with
    | start => exact absurd ((Statement.ofMnemonic_eq_start_iff _ _ _).1 hst) hstart
    | finish => exact absurd ((Statement.ofMnemonic_eq_finish_iff _ _ _).1 hst) hend
    | storage kind =>
      exact (((laid_storageLine h.within hst).map (hwait hend)).takes hno).mono overweight_of_weight
    | command op =>
      exact (((laid_commandLine h.within use hst hl).map (hwait hend)).takes hno).mono hoverweight
    | unknown =>
      refine ⟨hno, hwait hend (s.report n [.unknownCommand l.mnemonic]) ⟨?_, id, ?_, rfl, rfl, rfl⟩⟩
      · simp [leavesRecord_of_unknown hst, State.report]
      · obtain ⟨hcounter, hnames, hdrafts⟩ :=
          h.within.mono (Nat.le_add_right _ (l.weight .relocatable table))
        exact ⟨hcounter, hnames, hdrafts⟩
    | newSection => exact absurd hst hsection
    | exportName => exact absurd hst hexport
    | importName => exact absurd hst himport

theorem Kept.startLine (h : Kept table pre pre s) (hl : l.mnemonic = "START") :
    Kept table (pre ++ [l]) (pre ++ [l]) (s.startLine n l) := by
  have hst := (Statement.ofMnemonic_eq_start_iff .relocatable table _).2 hl
  have hgrown : Within (bulk .relocatable table (pre ++ [l])) s :=
    h.within.mono (by rw [bulk_concat]; omega)
  have hload : (s.load l).counter.natAbs ≤ bulk .relocatable table (pre ++ [l]) := by
    unfold Frame.load
    split
    · next v hv =>
      have hmem : Operand.number v ∈ l.operands := by
        unfold onlyNumber? at hv
        split at hv
        · next w hw => simp_all
        · cases hv
      have hweight : v.natAbs ≤ l.weight .relocatable table :=
        natAbs_constant_le .relocatable table hmem
      exact hweight.trans (by rw [bulk_concat]; omega)
    · exact hgrown.counter
  refine ⟨(s.ended_commence _ _ l).trans h.going, ?_, ?_, ⟨?_, hgrown.names, ?_⟩, h.tables.start hl⟩
  · have hleaves : leavesRecord .relocatable table l = true := by rw [leavesRecord, hst]
    have hcommand : isCommand table l = false := by rw [isCommand, hst]
    simp [State.startLine, recordLines_concat, hleaves, hcommand, ← h.kinds, Draft.fills]
  · exact List.forall_mem_append.2 ⟨h.readable, List.forall_mem_singleton.2 trivial⟩
  · change (s.commence .relocatable (fun _ => .line n) l).counter.natAbs ≤ _
    rw [Frame.commence_eq]
    exact hload
  · exact List.forall_mem_append.2 ⟨hgrown.drafts, List.forall_mem_singleton.2 trivial⟩

/-! ## Lines and runs -/

theorem view_isOk (h : ∀ r ∈ s.drafts, r.Readable) : ∃ v, s.view = .ok v := by
  obtain ⟨os, hos⟩ := Draft.exists_records (d := dialect) rfl h
  exact ⟨_, by rw [State.view, hos]; rfl⟩

/-- A line is taken in if and only if it does not halt the pass, or is overweight. -/
theorem breaking (table : OpTable) (use : NameUse) :
    (pass table use).Breaking Readable (fun pre s => Kept table pre pre s)
      (Overweight .relocatable table) (Halts table) where
  going h := h.going
  shown {pre s} h := view_isOk (s := s.close) h.readable
  step {pre s n l} h hl := by
    change Takes _ _ _ (State.line table use s n l)
    by_cases hstart : l.mnemonic = "START"
    · rw [State.line, (Statement.ofMnemonic_eq_start_iff .relocatable table _).2 hstart]
      have hnext := h.startLine (n := n) hstart
      have hend : l.mnemonic ≠ "END" := by simp [hstart]
      exact ⟨not_or.2 ⟨fun hhalts => hhalts.1 hstart, fun hhalts => hend hhalts.1⟩,
        view_isOk hnext.readable, fun _ => hnext, fun heq => absurd heq hend⟩
    · have hnote :=
        ((h.expectStarted n).noteLabel (n := n) hstart).mono fun hbulk =>
          show Overweight .relocatable table pre l by
        rw [Overweight, bulk_concat]
        omega
      rw [State.line, takeIn_of_ne_start (mt (Statement.ofMnemonic_eq_start_iff _ _ _).1 hstart)]
      refine hnote.bind fun s' hs' => ?_
      refine (hs'.bodyLine use hstart hl.legible).imp fun s' hbody => ?_
      obtain ⟨hreadable, hkept, hended⟩ := hbody
      exact ⟨view_isOk hreadable, hkept,
        fun hend => ⟨hended hend, view_isOk (s := s'.close) hreadable⟩⟩

end Relocatable

end Assembler.OnePass
