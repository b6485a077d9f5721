import Mathlib.Data.List.Induction
import Assembler.Proofs.ChangedTables
import Assembler.Window.Event

/-! # What a guarded window shows

A guarded window keeps the results of a first pass for a second one.  The parts of these results are
replaced at different moments of a first pass, some of them before a step that may fail, so a
listing may stand beside a table that it was not made with.  `Consistent` says what holds all the
same: the second pass is offered only for a listing of the source and the choice at hand, and the
table beside it is the one of the listing or one under which no code can be made of it.  So the code
that is shown belongs to the source, the choice and a table that was read after they changed last
(`shown_code_fresh`). -/

namespace Assembler.Window
open TwoPass.Sectioned (sectionEnd)
set_option autoImplicit false

variable {layout : Layout} {w : State} {R : OpTable → Prop} {A B : OpTable} {program : List Line}
  {rows : List Row} {symbols : Symbols} {src : Source}

/-! ## Tables that are filled -/

/-- The line can be shown in a listing. -/
def Writable (layout : Layout) (l : Line) : Prop :=
  layout = .sectioned ∧ l.mnemonic = sectionEnd ∨ l.operands.all Operand.hasText = true

theorem fault_fillRows_iff (width : Nat) (cells : Row → Except Fault (List (Option String)))
    (rows : List Row) :
    (fillRows width cells rows).2 = none ↔ ∀ r ∈ rows, ∃ row, cells r = .ok row := by
  induction rows with
  | nil => simp [fillRows]
  | cons r rows ih =>
    rw [fillRows, List.forall_mem_cons, ← ih]
    cases cells r <;> simp

theorem exists_map_listWritten_iff {α : Type} (f : String → α) (ops : List Operand) :
    (∃ row, (Operand.listWritten ops).map f = .ok row) ↔ ops.all Operand.hasText = true := by
  unfold Operand.listWritten writtenIf
  split
  · next hall => simp [hall, Except.map]
  · next hall => simp [hall, Except.map]

theorem fault_listingTable_iff (layout : Layout) (table : OpTable) (rows : List Row) :
    (listingTable layout table rows).fault = none ↔ ∀ r ∈ rows, Writable layout r.line := by
  cases layout with
  | sectioned =>
    refine (fault_fillRows_iff _ _ _).trans (forall₂_congr fun r _ => ?_)
    unfold sectionedListingRow Writable
    dsimp only
    split
    · next hend => simp [hend]
    · next hend => rw [exists_map_listWritten_iff]; simp [hend]
  | absolute =>
    refine (fault_fillRows_iff _ _ _).trans (forall₂_congr fun r _ => ?_)
    rw [flatListingRow, exists_map_listWritten_iff]
    simp [Writable]
  | relocatable =>
    refine (fault_fillRows_iff _ _ _).trans (forall₂_congr fun r _ => ?_)
    rw [flatListingRow, exists_map_listWritten_iff]
    simp [Writable]

theorem fault_of_lists {rows' : List Row} (hA : Lists layout A program rows)
    (hB : Lists layout B program rows') (h : (listingTable layout A rows).fault = none) :
    (listingTable layout B rows').fault = none := by
  rw [fault_listingTable_iff] at h ⊢
  intro r hr
  obtain hline | hend := hB.lines r hr
  · obtain ⟨q, hq, hsame⟩ := hA.carried _ hline
    rw [← hsame]
    exact h q hq
  · exact .inl hend

theorem knownAddresses_some (es : List (String × Int)) :
    knownAddresses (es.map fun e => (e.1, some e.2)) = .ok es := by
  induction es with
  | nil => rfl
  | cons e es ih =>
    rw [List.map_cons, knownAddresses, ih]
    rfl

/-- The names of a listing can always be shown. -/
theorem exists_namesTable {use : NameUse}
    (h : listProgram ⟨layout, .twoPass⟩ A use program = .ok (.listed rows symbols)) :
    ∃ names, namesTable ⟨layout, .twoPass⟩ symbols = .ok names := by
  by_cases hl : layout = .sectioned
  · subst hl
    obtain ⟨-, sections, rfl, -⟩ := TwoPass.Sectioned.of_list h
    exact ⟨_, rfl⟩
  · rw [listProgram_flat hl] at h
    obtain ⟨first, body, last, rest, -, -, -, rfl⟩ :=
      (TwoPass.Flat.list_eq_listed_iff _ _ _ _ _ _).1 h
    have hknown := knownAddresses_some (TwoPass.Flat.listedNames layout A first body last).entries
    exact ⟨_, congrArg (Except.map _) hknown⟩

theorem fault_showRows (w : State) (table : OpTable) (rows : List Row) :
    ∃ listing,
      showRows w table rows =
        ⟨{ w with listing }, (listingTable w.dialect.layout table rows).fault⟩ := by
  unfold showRows
  split
  · next hempty =>
    have hnone :=
      (fault_listingTable_iff w.dialect.layout table rows).2 (by simp [List.isEmpty_iff.1 hempty])
    rw [hnone]
    exact ⟨w.listing, rfl⟩
  · exact ⟨_, rfl⟩

theorem showSymbols_eq (w : State) (symbols : Symbols) {names : Grid}
    (h : namesTable w.dialect symbols = .ok names) :
    ∃ names, showSymbols w symbols = calm { w with names } := by
  unfold showSymbols
  split
  · exact ⟨w.names, rfl⟩
  · exact ⟨names, by rw [h]⟩

/-- A listing is remembered if it can be shown. -/
theorem showListing_cases (w : State) (table : OpTable) (rows : List Row) {names : Grid}
    (h : namesTable w.dialect symbols = .ok names) :
    (∃ listing names, (listingTable w.dialect.layout table rows).fault = none ∧
      showListing w table rows symbols =
        calm { w with listing, names, rows := some rows, symbols := some symbols }) ∨
    ∃ listing x, (listingTable w.dialect.layout table rows).fault = some x ∧
      showListing w table rows symbols = upset { w with listing } x := by
  obtain ⟨listing, hrows⟩ := fault_showRows w table rows
  unfold showListing
  rw [hrows]
  cases hfault : (listingTable w.dialect.layout table rows).fault with
  | some x => exact .inr ⟨listing, x, rfl, rfl⟩
  | none =>
    obtain ⟨names, hsymbols⟩ := showSymbols_eq { w with listing } symbols h
    refine .inl ⟨listing, names, rfl, ?_⟩
    simp [Reaction.next, hsymbols, calm]

/-- Records are shown where nothing was shown before. -/
theorem showCode_eq (w : State) (hcode : w.code = []) (records : List ObjectRecord)
    (ms : List Modification) :
    ∃ modifications,
      showCode w records ms =
        { w with code := records.map (·.text w.dialect.codeStyle), modifications } := by
  unfold showCode
  split
  · next hempty =>
    refine ⟨w.modifications, ?_⟩
    rw [List.isEmpty_iff.1 hempty, List.map_nil, ← hcode]
  · exact ⟨_, rfl⟩

/-! ## What a guarded window remembers -/

/-- A text can be read as a source and has a listing under a table. -/
structure ListedUnder (d : Dialect) (text : String) (use : NameUse) (table : OpTable) (src : Source)
    (rows : List Row) (symbols : Symbols) : Prop where
  parsed : Source.parse d text = .ok src
  bad : src.bad = []
  listed : listProgram d table use src.lines = .ok (.listed rows symbols)

/-- A window holds the listing of its source under one of the tables `R`.  It may meanwhile have
read another one of them, under which the first pass fails. -/
def HoldsListing (R : OpTable → Prop) (w : State) : Prop :=
  ∃ src A rows symbols, ListedUnder w.dialect w.source w.use A src rows symbols ∧ R A ∧
    (listingTable w.dialect.layout A rows).fault = none ∧
    w.rows = some rows ∧ w.symbols = some symbols ∧
    ∃ B, w.table = some B ∧ R B ∧ (B = A ∨ ∃ x, listProgram w.dialect B w.use src.lines = .error x)

/-- A window shows the code of its source under one of the tables `R`. -/
def ShowsCode (R : OpTable → Prop) (w : State) : Prop :=
  ∃ src A rows symbols records ms, ListedUnder w.dialect w.source w.use A src rows symbols ∧ R A ∧
    makeCode w.dialect (.ofSymbols symbols) A rows = .ok (.made records ms) ∧
    w.code = records.map (·.text w.dialect.codeStyle)

/-- What ties the button, the flags, the tables and the code of a guarded window to its source.  `R`
are the tables that were read since the last change. -/
structure Consistent (layout : Layout) (R : OpTable → Prop) (w : State) : Prop where
  dialect : w.dialect = ⟨layout, .twoPass⟩
  control : w.control = .guarded
  offered : w.secondEnabled = true → w.firstDone = true ∧ HoldsListing R w
  shown : w.code ≠ [] → w.secondDone = true ∧
    ((layout = .sectioned → w.source.toList.length < 2 ^ 63) → ShowsCode R w)

namespace Consistent

theorem mono {R' : OpTable → Prop} (h : Consistent layout R w) (hR : ∀ t, R t → R' t) :
    Consistent layout R' w := by
  refine ⟨h.dialect, h.control, fun he => ?_, fun hne => ?_⟩
  · obtain ⟨hfirst, src, A, rows, symbols, hlisted, hA, hfault, hrows, hsymbols, B, htable, hB,
        hwhich⟩ := h.offered he
    exact ⟨hfirst, src, A, rows, symbols, hlisted, hR A hA, hfault, hrows, hsymbols, B, htable,
      hR B hB, hwhich⟩
  · obtain ⟨hdone, hcode⟩ := h.shown hne
    refine ⟨hdone, fun hlength => ?_⟩
    obtain ⟨src, A, rows, symbols, records, ms, hlisted, hA, hmade, hshown⟩ := hcode hlength
    exact ⟨src, A, rows, symbols, records, ms, hlisted, hR A hA, hmade, hshown⟩

/-- Nothing is offered or shown. -/
theorem withdrawn (hd : w.dialect = ⟨layout, .twoPass⟩) (hc : w.control = .guarded)
    (hfirst : w.firstDone = false) (hcode : w.code = []) : Consistent layout R w.refresh := by
  refine ⟨hd, hc, fun he => ?_, fun hne => absurd hcode hne⟩
  simp [State.refresh, hfirst] at he

/-- A change takes back what is offered and shown. -/
theorem changed (hd : w.dialect = ⟨layout, .twoPass⟩) (hc : w.control = .guarded)
    (hoffered : w.secondEnabled = true → w.firstDone = true)
    (hshown : w.code ≠ [] → w.secondDone = true) :
    Consistent layout R (changed w).window := by
  simp only [Window.changed, hc]
  unfold guardedChange
  split
  · exact withdrawn hd hc rfl rfl
  · next hnone =>
    rw [Bool.or_eq_true, not_or] at hnone
    exact ⟨hd, hc, fun he => absurd (hoffered he) hnone.1, fun hne => absurd (hshown hne) hnone.2⟩

/-- A listing is remembered under the table it was made with.  If it cannot be shown, nothing was
offered before, because then no listing of the source can be shown. -/
theorem guardedListing (hd : w.dialect = ⟨layout, .twoPass⟩) (hc : w.control = .guarded)
    (hcode : w.code = []) (hsized : ∀ t, R t → t.Sized layout) (htable : w.table = some B)
    (hB : R B) (hlisted : ListedUnder w.dialect w.source w.use B src rows symbols)
    (hbefore : w.secondEnabled = true → ∃ src A rows symbols,
      ListedUnder w.dialect w.source w.use A src rows symbols ∧ R A ∧
      (listingTable w.dialect.layout A rows).fault = none) :
    Consistent layout R (guardedListing w B (.listed rows symbols)).window := by
  have hlisting := hlisted.listed
  rw [hd] at hlisting
  obtain ⟨names₀, hnames⟩ := exists_namesTable hlisting
  rw [← hd] at hnames
  rw [Window.guardedListing]
  obtain ⟨listing, names, hfault, heq⟩ | ⟨listing, x, hfault, heq⟩ :=
    showListing_cases { w with firstDone := true } B rows hnames
  · rw [heq]
    exact ⟨hd, hc,
      fun _ => ⟨rfl, src, B, rows, symbols, hlisted, hB, hfault, rfl, rfl, B, htable, hB, .inl rfl⟩,
      fun hne => absurd hcode hne⟩
  · rw [heq]
    refine ⟨hd, hc, fun he => ?_, fun hne => absurd hcode hne⟩
    obtain ⟨src', A, rows', symbols', hlisted', hA, hfault'⟩ := hbefore he
    obtain rfl : src' = src := Except.ok.inj (hlisted'.parsed.symm.trans hlisted.parsed)
    have hlisting' := hlisted'.listed
    rw [hd] at hlisting' hfault'
    have hnone :=
      fault_of_lists (lists_of_listProgram (hsized A hA) hlisting')
        (lists_of_listProgram (hsized B hB) hlisting) hfault'
    change (listingTable w.dialect.layout B rows).fault = some x at hfault
    rw [hd, hnone] at hfault
    cases hfault

/-- A first pass leaves the window with a listing under the table it reads, with the listing it had,
or with none. -/
theorem guardedFirst (h : Consistent layout R w) (hsized : ∀ t, R t → t.Sized layout)
    (hread : ∀ sheet, w.readSheet = .ok sheet → sheet.problems = [] → R sheet.table) :
    Consistent layout R (guardedFirst w).window := by
  have hd := h.dialect
  have hc := h.control
  have hcleared :
      ∀ firstErrors,
        Consistent layout R
          { w with secondDone := false, secondErrors := [], code := [], firstErrors } :=
    fun firstErrors => ⟨hd, hc, h.offered, fun hne => absurd rfl hne⟩
  unfold Window.guardedFirst
  dsimp only
  split
  · exact hcleared w.firstErrors
  · next src hparse =>
    split
    · exact withdrawn hd hc rfl rfl
    · next hbad =>
      have hbad : src.bad = [] := by simpa using hbad
      split
      · exact hcleared _
      · next sheet hsheet =>
        split
        · exact withdrawn hd hc rfl rfl
        · next hproblems =>
          have hR := hread sheet hsheet (by simpa using hproblems)
          split
          · next x hfails =>
            refine ⟨hd, hc, fun he => ?_, fun hne => absurd rfl hne⟩
            obtain ⟨hfirst, src', A, rows, symbols, hlisted, hA, hfault, hrows, hsymbols, -⟩ :=
              h.offered he
            obtain rfl : src' = src := Except.ok.inj (hlisted.parsed.symm.trans hparse)
            exact ⟨hfirst, src', A, rows, symbols, ⟨hparse, hbad, hlisted.listed⟩, hA, hfault,
              hrows, hsymbols, sheet.table, rfl, hR, .inr ⟨x, hfails⟩⟩
          · next listing hlisting =>
            cases listing with
            | refused found => exact withdrawn hd hc rfl rfl
            | listed rows symbols =>
              refine guardedListing hd hc rfl hsized rfl hR ⟨hparse, hbad, hlisting⟩ fun he => ?_
              obtain ⟨-, src', A, rows', symbols', hlisted, hA, hfault, -⟩ := h.offered he
              exact ⟨src', A, rows', symbols', hlisted, hA, hfault⟩

/-- A second pass shows the code of the listing it was offered for. -/
theorem guardedSecond (h : Consistent layout R w) (hsized : ∀ t, R t → t.Sized layout)
    (he : w.secondEnabled = true) :
    Consistent layout R (guardedSecond w).window := by
  have hd := h.dialect
  have hc := h.control
  obtain ⟨hfirst, hholds⟩ := h.offered he
  obtain ⟨src, A, rows, symbols, hlisted, hA, -, hrows, hsymbols, B, htable, hB, hwhich⟩ :=
    id hholds
  unfold Window.guardedSecond
  split
  · next rows' symbols' table' hrows' hsymbols' htable' =>
    obtain rfl : rows = rows' := Option.some.inj (hrows.symm.trans hrows')
    obtain rfl : symbols = symbols' := Option.some.inj (hsymbols.symm.trans hsymbols')
    obtain rfl : B = table' := Option.some.inj (htable.symm.trans htable')
    dsimp only
    split
    · exact ⟨hd, hc, h.offered, fun hne => absurd rfl hne⟩
    · exact ⟨hd, hc, fun _ => ⟨hfirst, hholds⟩, fun hne => absurd rfl hne⟩
    · next records ms hmade =>
      obtain ⟨modifications, hshow⟩ :=
        showCode_eq { w with code := [], secondErrors := [] } rfl records ms
      rw [hshow]
      refine ⟨hd, hc, fun he => ?_, fun _ => ⟨rfl, fun hlength => ?_⟩⟩
      · simp [State.refresh, calm] at he
      · obtain rfl | ⟨x, hfails⟩ := hwhich
        · exact ⟨src, B, rows, symbols, records, ms, hlisted, hA, hmade, rfl⟩
        · obtain ⟨hparse, -, hlisting⟩ := hlisted
          rw [hd] at hparse hlisting hfails hmade
          exact absurd hmade
            (not_made_of_error (hsized A hA) (hsized B hB) hparse hlength hlisting hfails _ _ _)
  · next hnone => exact absurd htable (hnone rows symbols B hrows hsymbols)

end Consistent

/-! ## Events -/

/-- The event changes the source or the choice. -/
def Event.changes : Event → Bool
  | .editSource _ | .choose _ => true
  | _ => false

/-- A table that a click on the first button found in order in the sheet, nothing being changed
since then. -/
def ReadSince (w₀ : State) (events : List Event) (table : OpTable) : Prop :=
  ∃ before after sheet, events = before ++ .click "firstPass" :: after ∧
    (∀ e ∈ after, e.changes = false) ∧
    (w₀.after before).readSheet = .ok sheet ∧ sheet.problems = [] ∧ sheet.table = table

theorem ReadSince.concat {w₀ : State} {events : List Event} (h : ReadSince w₀ events A) {e : Event}
    (he : e.changes = false) :
    ReadSince w₀ (events ++ [e]) A := by
  obtain ⟨before, after, sheet, rfl, hafter, hread⟩ := h
  refine ⟨before, after ++ [e], sheet, by simp, fun k hk => ?_, hread⟩
  obtain hk | hk := List.mem_append.1 hk
  · exact hafter k hk
  · rwa [List.mem_singleton.1 hk]

theorem Button.eq_of_ofName? {name : String} {b : Button} (h : Button.ofName? name = some b) :
    (b = .firstPass → name = "firstPass") ∧ (b = .secondPass → name = "secondPass") := by
  unfold Button.ofName? at h
  split at h <;> cases h <;> simp

theorem sized_of_readSheet (hl : layout ≠ .absolute) (hd : w.dialect = ⟨layout, .twoPass⟩)
    (hc : w.control = .guarded) {sheet : Sheet.Reading} (h : w.readSheet = .ok sheet)
    (hproblems : sheet.problems = []) : sheet.table.Sized layout := by
  intro m op hop
  have hmem := Sheet.size_mem_of_read h hproblems hop
  have hsizes : w.sizes = layout.commandSizes := by
    rw [State.sizes, hc, if_neg (by decide), hd]
    cases layout with
    | absolute => exact absurd rfl hl
    | _ => rfl
  rwa [hsizes] at hmem

/-- What one event leaves of a window that is consistent. -/
theorem Consistent.react {R' : OpTable → Prop} (hl : layout ≠ .absolute) (h : Consistent layout R w)
    (e : Event) (hsecond : e = .click "secondPass" → w.secondEnabled = true)
    (hkeep : e.changes = false → ∀ t, R t → R' t) (hsized : ∀ t, R' t → t.Sized layout)
    (hread : e = .click "firstPass" → ∀ sheet, w.readSheet = .ok sheet → sheet.problems = [] →
      R' sheet.table) :
    Consistent layout R' (react w e).window := by
  have hd := h.dialect
  have hc := h.control
  have hoffered : w.secondEnabled = true → w.firstDone = true := fun he => (h.offered he).1
  have hshown : w.code ≠ [] → w.secondDone = true := fun hne => (h.shown hne).1
  have hsheet : ∀ v : State, Consistent layout R' v →
      Consistent layout R' (sheetChanged v).window := fun v hv => by
    simp only [sheetChanged, hv.control]
    exact hv
  cases e with
  | editSource text => exact changed hd hc hoffered hshown
  | choose i =>
    have hchoice : formHasChoice w.dialect = true := by
      rw [hd]
      simpa [formHasChoice] using hl
    rw [Window.react, if_pos hchoice]
    exact changed hd hc hoffered hshown
  | setRows n =>
    have h' := h.mono (hkeep rfl)
    exact ⟨hd, hc, h'.offered, h'.shown⟩
  | editCell row column text =>
    have h' := h.mono (hkeep rfl)
    exact hsheet _ ⟨hd, hc, h'.offered, h'.shown⟩
  | clickSheet => exact hsheet _ (h.mono (hkeep rfl))
  | click name =>
    have h' := h.mono (hkeep rfl)
    rw [Window.react]
    split
    · exact h'
    · next b hb =>
      obtain ⟨hfirst, hsecondName⟩ := Button.eq_of_ofName? hb
      split
      · next hbutton =>
        cases b with
        | firstPass =>
          rw [clicked, hc]
          exact h'.guardedFirst hsized (hread (by rw [hfirst rfl]))
        | secondPass =>
          rw [clicked, hc]
          exact h'.guardedSecond hsized (hsecond (by rw [hsecondName rfl]))
        | tracePass =>
          rw [hd] at hbutton
          cases hbutton
        | clearFirst => exact ⟨hd, hc, h'.offered, h'.shown⟩
        | clearSecond => exact ⟨hd, hc, h'.offered, h'.shown⟩
      · exact h'

/-- The second button is clicked only while it can be. -/
def SecondWhenOffered : State → List Event → Prop
  | _, [] => True
  | w, e :: es =>
    (e = .click "secondPass" → w.secondEnabled = true) ∧ SecondWhenOffered (react w e).window es

instance SecondWhenOffered.decidable : (w : State) → (es : List Event) →
    Decidable (SecondWhenOffered w es)
  | _, [] => isTrue trivial
  | w, _ :: es => @instDecidableAnd _ _ _ (SecondWhenOffered.decidable (react w _).window es)

theorem secondWhenOffered_concat (w : State) (es : List Event) (e : Event) :
    SecondWhenOffered w (es ++ [e]) ↔
    SecondWhenOffered w es ∧ (e = .click "secondPass" → (w.after es).secondEnabled = true) := by
  induction es generalizing w with
  | nil => simp [SecondWhenOffered]
  | cons f es ih =>
    rw [List.cons_append, SecondWhenOffered, SecondWhenOffered, ih, and_assoc]
    rfl

theorem consistent_after (hl : layout ≠ .absolute) {w₀ : State}
    (hopen : State.create ⟨layout, .twoPass⟩ .guarded = .ok w₀) {events : List Event}
    (hclicks : SecondWhenOffered w₀ events) :
    Consistent layout (fun t => t.Sized layout ∧ ReadSince w₀ events t) (w₀.after events) := by
  induction events using List.reverseRecOn with
  | nil =>
    obtain rfl := Except.ok.inj hopen
    exact .withdrawn rfl rfl rfl rfl
  | append_singleton events e ih =>
    obtain ⟨hbefore, hclick⟩ := (secondWhenOffered_concat w₀ events e).1 hclicks
    have h := ih hbefore
    rw [State.after_concat]
    refine h.react hl e hclick (fun he t ht => ⟨ht.1, ht.2.concat he⟩) (fun t ht => ht.1) ?_
    rintro rfl sheet hread hproblems
    exact ⟨sized_of_readSheet hl h.dialect h.control hread hproblems,
      events, [], sheet, rfl, by simp, hread, hproblems, rfl⟩

/-- What a guarded window shows is the code of its source and choice under a table that was read
after their last change.  In sectioned programs an address may be too long to be told, for which a
text needs more characters than any machine holds. -/
theorem shown_code_fresh {d : Dialect} (hd : Control.ofDialect d = .guarded) {w₀ : State}
    (hopen : State.create d .guarded = .ok w₀) {events : List Event}
    (hclicks : SecondWhenOffered w₀ events)
    (hlength : d.layout = .sectioned → (w₀.after events).source.toList.length < 2 ^ 63)
    (hcode : (w₀.after events).code ≠ []) :
    ∃ src, Source.parse d (w₀.after events).source = .ok src ∧ src.bad = [] ∧
      ∃ before after sheet, events = before ++ .click "firstPass" :: after ∧
      (∀ e ∈ after, e.changes = false) ∧
        (w₀.after before).readSheet = .ok sheet ∧ sheet.problems = [] ∧
        ∃ rows symbols records ms,
          listProgram d sheet.table (.ofIndex (w₀.after events).choice) src.lines =
            .ok (.listed rows symbols) ∧
          makeCode d (.ofSymbols symbols) sheet.table rows = .ok (.made records ms) ∧
          (w₀.after events).code = records.map (·.text d.codeStyle) := by
  obtain ⟨layout, strategy⟩ := d
  obtain rfl : strategy = .twoPass := by
    cases strategy with
    | twoPass => rfl
    | onePass => cases hd
  have hl : layout ≠ .absolute := by
    rintro rfl
    cases hd
  have h := consistent_after hl hopen hclicks
  obtain ⟨src, table, rows, symbols, records, ms, ⟨hparse, hbad, hlisted⟩,
      ⟨-, before, after, sheet, hcut, hafter, hread, hproblems, rfl⟩,
    hmade, hshown⟩ := (h.shown hcode).2 hlength
  have huse : (w₀.after events).use = .ofIndex (w₀.after events).choice := by
    have hchoice : formHasChoice ⟨layout, .twoPass⟩ = true := by simpa [formHasChoice] using hl
    rw [State.use, h.dialect, if_pos hchoice]
  rw [h.dialect] at hparse hlisted hmade hshown
  rw [huse] at hlisted
  exact ⟨src, hparse, hbad, before, after, sheet, hcut, hafter, hread, hproblems, rows, symbols,
    records, ms, hlisted, hmade, hshown⟩

/-- Between the changes of the source a first pass fails under a changed sheet, and the second pass
is tried all the same. -/
def retriedRun : List Event :=
  [.editSource "P: START\n LOAD c''\n END\n", .click "firstPass", .editCell 0 2 "4",
    .click "firstPass", .click "secondPass", .editSource "P: START\n LOAD 5\n END\n",
    .click "firstPass", .click "secondPass"]

/-- What is shown at the end belongs to the last source. -/
theorem retriedRun_fresh : ∃ w₀, State.create ⟨.sectioned, .twoPass⟩ .guarded = .ok w₀ ∧
    Control.ofDialect ⟨.sectioned, .twoPass⟩ = .guarded ∧ SecondWhenOffered w₀ retriedRun ∧
    (w₀.after retriedRun).source.toList.length < 2 ^ 63 ∧
    (∃ r ∈ reactions w₀ retriedRun, r.fault = some (.notHexadecimal "")) ∧
    (w₀.after retriedRun).code = ["H P 000000 4", "T 000000 4 04000005", "E 000000"] ∧
    ∃ src, Source.parse ⟨.sectioned, .twoPass⟩ (w₀.after retriedRun).source = .ok src ∧
    src.bad = [] ∧
      ∃ before after sheet, retriedRun = before ++ .click "firstPass" :: after ∧
      (∀ e ∈ after, e.changes = false) ∧
        (w₀.after before).readSheet = .ok sheet ∧ sheet.problems = [] ∧
        ∃ rows symbols records ms,
          listProgram ⟨.sectioned, .twoPass⟩ sheet.table (.ofIndex (w₀.after retriedRun).choice)
            src.lines = .ok (.listed rows symbols) ∧
          makeCode ⟨.sectioned, .twoPass⟩ (.ofSymbols symbols) sheet.table rows =
            .ok (.made records ms) ∧
          (w₀.after retriedRun).code =
            records.map (·.text (Dialect.codeStyle ⟨.sectioned, .twoPass⟩)) := by
  have hclicks :
      SecondWhenOffered (State.blank ⟨.sectioned, .twoPass⟩ .guarded).refresh retriedRun := by
        decide +kernel
  have hlength :
      ((State.blank ⟨.sectioned, .twoPass⟩ .guarded).refresh.after
        retriedRun).source.toList.length < 2 ^ 63 := by
    decide +kernel
  exact ⟨_, rfl, rfl, hclicks, hlength, by decide +kernel, by decide +kernel,
    shown_code_fresh rfl rfl hclicks (fun _ => hlength) (by decide +kernel)⟩

end Assembler.Window
