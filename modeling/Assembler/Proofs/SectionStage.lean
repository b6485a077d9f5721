import Assembler.OnePass.Sectioned
import Assembler.Proofs.RowContexts

/-! # Lines of a section in one pass

While nothing is found wrong, the drafts of the pass are those of the sections closed so far and of
the rows of the open one, each read as its context says (`RowContext.draft`), and what waits is what
the contexts wait for.  This invariant, `Stage`, carries over from line to line: first when the
label of a line is noted, then for each kind of line. -/

namespace Assembler.OnePass.Sectioned
open Assembler
set_option autoImplicit false

/-- The rows of a section in one pass. -/
def contextsOf (table : OpTable) (sec : ControlSection) : List RowContext :=
  contexts table (fun _ => none) (sec.rows table) (sec.endRows table)

def modificationDraft (N : NameTable) (m : Int × String) : Draft :=
  .modification m.1 (if N.Imported m.2 then some m.2 else none)

/-- The drafts of a closed section whose rows have the given contexts. -/
def closedDrafts (table : OpTable) (opener closer : Line) (cs : List RowContext) (N : NameTable)
    (length : Int) : List Draft :=
  .header opener.label 0 (some length) ::
    (cs.map (·.draft table) ++ ((cs.map (·.row)).flatMap (modifiedNames table)).map
      (modificationDraft N) ++ [.finish ((onlyNumber? closer.operands).getD 0)])

def draftsOf (table : OpTable) (sec : ControlSection) : List Draft :=
  closedDrafts table sec.opener sec.closer (contextsOf table sec) (sec.names .onePass table)
    (sec.length table)

/-- The pass after lines that nothing is wrong with: the sections `done` are closed, the rows of the
open one have contexts `cs` and have left the names `N`, and the next line stands at `a`. -/
structure Stage (table : OpTable) (use : NameUse) (done : List ControlSection) (opener : Line)
    (cs : List RowContext) (N : NameTable) (a : Int) (s : State) : Prop where
  counter : s.counter = a
  origin : s.origin = 0
  started : s.started = true
  found : s.found = []
  current : s.current = opener.label
  headerPlace : s.headerPlace = (done.flatMap (draftsOf table)).length
  drafts : s.drafts = done.flatMap (draftsOf table) ++ .header opener.label 0 none ::
    cs.map (·.draft table)
  modified : s.modified = (cs.map (·.row)).flatMap (modifiedNames table)
  tables : ∀ k, (s.sections.get? k).map (fun ns => ns.get?) =
    tableOf (tablesOf .onePass table done ++ [(opener.label, N)]) k
  waiting : ∀ x, s.waiting.get? x =
    if placesWhere (RowContext.Awaits table x) (s.headerPlace + 1) cs = [] then none
    else some (placesWhere (RowContext.Awaits table x) (s.headerPlace + 1) cs)
  lines : ∀ c ∈ cs, RowFits table use c.row
  relatives : ∀ c ∈ cs, ∀ x, c.line.operands = [.relative x] → ∀ e, c.entryFor? table x = some e →
    e.linkage ≠ some .imported

variable {table : OpTable} {use : NameUse} {done : List ControlSection} {opener : Line}
  {cs : List RowContext} {N : NameTable} {a : Int} {s s' : State} {l : Line}

namespace State

theorem names_eq_ok_iff {ns : SectionNames (Option Int)} :
    s.names = .ok ns ↔ s.sections.get? s.current = some ns := by
  unfold names
  cases s.sections.get? s.current <;> simp

/-! ## Filling -/

theorem fillPlaces_clean {places : List (Option Nat)} (h : s.fillPlaces places = .ok s')
    (hf : s'.found = []) :
    s.found = [] ∧ ∃ ds, changeAll s.fill places s.drafts = .ok ds ∧
      s' = { s with drafts := ds } := by
  induction places generalizing s with
  | nil =>
    cases h
    exact ⟨hf, _, rfl, rfl⟩
  | cons place places ih =>
    rw [fillPlaces] at h
    cases hat : s.fillAt place with
    | error x => simp [hat] at h
    | ok s₁ =>
      simp only [hat] at h
      obtain ⟨hf₁, ds, hds, rfl⟩ := ih h
      unfold fillAt at hat
      simp only at hat
      split at hat
      · cases hat
      · next r hr =>
        cases hfill : s.fill r with
        | error x =>
          simp only [hfill, Except.ok.injEq] at hat
          subst hat
          simp [report] at hf₁
        | ok r' =>
          simp only [hfill, Except.ok.injEq] at hat
          subst hat
          refine ⟨hf₁, ds, ?_, rfl⟩
          have hchange :
              changeAt s.fill place s.drafts =
                .ok (s.drafts.set (place.getD (s.drafts.length - 1)) r') := by
            simp [changeAt, hr, hfill]
          simp only [changeAll, hchange]
          exact hds

/-- Filling for a name fills the drafts that wait for it and then forgets them. -/
theorem fillWaiting_clean {x : String} (h : s.fillWaiting x = .ok s') (hf : s'.found = []) :
    s.found = [] ∧ ∃ ds, changeAll s.fill ((s.waiting.get? x).getD []) s.drafts = .ok ds ∧
      ∃ waiting, (∀ y, waiting.get? y = if x = y then none else s.waiting.get? y) ∧
      s' = { s with drafts := ds, waiting } := by
  unfold fillWaiting at h
  cases hw : s.waiting.get? x with
  | none =>
    simp only [hw, Except.ok.injEq] at h
    subst h
    refine ⟨hf, s.drafts, rfl, s.waiting, fun y => ?_, rfl⟩
    split
    · next hy => rw [← hy, hw]
    · rfl
  | some places =>
    simp only [hw, map_eq_ok_iff] at h
    obtain ⟨s₁, hs₁, rfl⟩ := h
    obtain ⟨hf₁, ds, hds, rfl⟩ := fillPlaces_clean hs₁ hf
    exact ⟨hf₁, ds, hds, _, fun y => OrderedMap.get?_erase _ _ _, rfl⟩

/-- A label that is left without a problem has no address yet and stands in memory. -/
theorem noteLabel_clean {ns : SectionNames (Option Int)} (hns : s.sections.get? s.current = some ns)
    {x : String} (hx : l.name? = some x) (h : s.noteLabel l = .ok s') (hf : s'.found = []) :
    s.found = [] ∧ (ns.get? x).bind (·.address) = none ∧ InMemory s.counter ∧
      (s.setAddress ns x).fillWaiting x = .ok s' := by
  simp only [noteLabel, hx, names_eq_ok_iff.2 hns] at h
  split at h
  · cases h
    simp [report] at hf
  · next htaken =>
    have hf₁ := (fillWaiting_clean h hf).1
    simp only [setAddress, setNames, report, List.append_eq_nil_iff, Site.report_eq_nil_iff,
      rangeProblems_eq_nil_iff] at hf₁
    refine ⟨hf₁.1, by simpa using htaken, hf₁.2, ?_⟩
    rw [(rangeProblems_eq_nil_iff _ _).2 hf₁.2] at h
    simpa [report] using h

end State

/-! ## Names and labels -/

theorem Stage.names (h : Stage table use done opener cs N a s) :
    ∃ ns, s.sections.get? s.current = some ns ∧ ns.get? = N := by
  have htable := h.tables opener.label
  rw [tableOf_concat, if_pos rfl, Option.map_eq_some_iff] at htable
  rwa [h.current]

theorem Stage.tables_of (h : Stage table use done opener cs N a s)
    {sections : Sections (Option Int)} {ns : SectionNames (Option Int)}
    (hns : sections.get? s.current = some ns)
    (hrest : ∀ k, s.current ≠ k → sections.get? k = s.sections.get? k) (k : Option String) :
    (sections.get? k).map (fun ns => ns.get?) =
      tableOf (tablesOf .onePass table done ++ [(opener.label, ns.get?)]) k := by
  rw [h.current] at hns hrest
  exact tableOf_replace h.tables hns hrest k

theorem Stage.tables_insert (h : Stage table use done opener cs N a s)
    (ns : SectionNames (Option Int)) (k : Option String) :
    ((s.sections.insert s.current ns).get? k).map (fun ns => ns.get?) =
      tableOf (tablesOf .onePass table done ++ [(opener.label, ns.get?)]) k :=
  h.tables_of (by simp) (fun k hk => by simp [hk]) k

/-- The names of the open section are known where its commands are filled in. -/
theorem Stage.knows {ns : SectionNames (Option Int)} (hns : s.sections.get? s.current = some ns)
    (next : Int) :
    (s.scope s.current next).Knows (.ofEntries ns.get? next) fun _ => True :=
  Scope.linked_knows hns next

/-- The contexts of the rows once one more row stands behind them. -/
theorem Stage.extend (h : Stage table use done opener cs N a s) {r : Row}
    {sections : Sections (Option Int)} {N' : NameTable} {waiting : Waiting} {drafts : List Draft}
    (htables : ∀ k, (sections.get? k).map (fun ns => ns.get?) =
      tableOf (tablesOf .onePass table done ++ [(opener.label, N')]) k)
    (hwaiting : ∀ y, waiting.get? y = if r.line.name? = some y then none else s.waiting.get? y)
    (hdrafts : drafts = done.flatMap (draftsOf table) ++ .header opener.label 0 none ::
      cs.map fun c => (c.extend r).draft table)
    (hrelatives : ∀ c ∈ cs, ∀ x, c.line.operands = [.relative x] → ∀ e,
      (c.extend r).entryFor? table x = some e →
      e.linkage ≠ some .imported) :
    Stage table use done opener (cs.map (·.extend r)) N' a
      { s with sections, waiting, drafts } := by
  refine { h with
    drafts := by rw [hdrafts, List.map_map]; rfl
    modified := by rw [h.modified, List.map_map]; rfl
    tables := htables
    waiting := fun x => ?_
    lines := fun c hc => ?_
    relatives := fun c hc => ?_ }
  · have hplaces :
        placesWhere (RowContext.Awaits table x) (s.headerPlace + 1) (cs.map (·.extend r)) =
        if r.line.name? = some x then []
          else placesWhere (RowContext.Awaits table x) (s.headerPlace + 1) cs := by
      rw [placesWhere_map]
      split
      · next hr =>
        exact (placesWhere_eq_nil_iff _ _ _).2 fun c _ hc => (RowContext.awaits_extend.1 hc).2 hr
      · next hr =>
        exact placesWhere_congr (fun c _ => RowContext.awaits_extend.trans (and_iff_left hr)) _
    rw [hwaiting, hplaces, h.waiting]
    split <;> simp
  · obtain ⟨b, hb, rfl⟩ := List.mem_map.1 hc
    exact h.lines b hb
  · obtain ⟨b, hb, rfl⟩ := List.mem_map.1 hc
    exact hrelatives b hb

/-- A row that carries a name changes the draft of no row that does not wait for the name. -/
theorem Stage.kept (ht : table.Sized .sectioned) (h : Stage table use done opener cs N a s)
    {r : Row} {c : RowContext} (hc : c ∈ cs) (hno : ∀ x, c.Awaits table x → r.line.name? ≠ some x) :
    c.draft table = (c.extend r).draft table ∧ ∀ x, c.line.operands = [.relative x] →
      ∀ e, (c.extend r).entryFor? table x = some e → e.linkage ≠ some .imported := by
  refine ⟨(RowContext.draft_extend ht (h.lines c hc).fits hno).symm,
    fun x hx e he => h.relatives c hc x hx e ?_⟩
  rwa [RowContext.entryFor?_extend_of_not_awaits
    (.inr ((h.lines c hc).fits.refersTo_of_relative hx)) fun hw => hno x hw.1 hw.2] at he

/-- Filling the drafts that wait for the name of a row reads them from the entry that the name has
then. -/
theorem Stage.filled (ht : table.Sized .sectioned) (h : Stage table use done opener cs N a s)
    (hN : ∀ c ∈ cs, NameTable.afterRows .onePass table (c.after table) c.later = N) {r : Row}
    {x : String} (hx : r.line.name? = some x) {sections : Sections (Option Int)} {k : Option String}
    {ns : SectionNames (Option Int)} (hns : sections.get? k = some ns)
    (hget : ns.get? = N.label r.address r.line) {ds : List Draft}
      (hd : changeAll
        (fun d => d.fill State.isUndefined (Scope.ofDialect dialect (.ofSections sections) k))
          ((s.waiting.get? x).getD []) s.drafts = .ok ds) :
    ds = done.flatMap (draftsOf table) ++ .header opener.label 0 none ::
      (cs.map fun c => (c.extend r).draft table) ∧
      ∀ c ∈ cs, ∀ y, c.line.operands = [.relative y] →
      ∀ e, (c.extend r).entryFor? table y = some e →
        e.linkage ≠ some .imported := by
  have hplaces : (s.waiting.get? x).getD [] = placesWhere (RowContext.Awaits table x)
      (done.flatMap (draftsOf table) ++ [Draft.header opener.label 0 none]).length cs := by
    rw [h.waiting, h.headerPlace, List.length_append, List.length_singleton]
    split
    · next hnil => rw [hnil]; rfl
    · rfl
  rw [h.drafts, List.append_cons, hplaces] at hd
  rw [List.append_cons]
  refine of_changeAll_placesWhere (fun c hc d hw hfill => ?_) (fun c hc hw => ?_) _ hd
  · have hentry : (c.extend r).entryFor? table x = N.label r.address r.line x := by
      rw [RowContext.entryFor?_extend, hw.2, if_pos hx, hN c hc, Option.none_or]
    refine ⟨RowContext.fill_draft ht (h.lines c hc) hw hx (fun next => Scope.linked_knows hns next)
      (by rw [hget, hN c hc]) hfill, fun y hy e he himp => ?_⟩
    obtain rfl : y = x := by
      rcases hw.operands ht (h.lines c hc).fits with hops | hops <;> simpa [hops] using hy.symm
    have himported : NameTable.Imported ns.get? y := by
      rw [hget, NameTable.Imported, NameTable.linkage?, ← hentry, he]
      exact himp
    exact RowContext.not_error_of_fill hw hy ((h.lines c hc).fits.refersTo_of_relative hy).1 rfl
      (fun next => Scope.linkedRelative_imported hns himported next) hfill
  · refine h.kept ht hc fun y hy hr => hw ?_
    obtain rfl : x = y := Option.some.inj (hx.symm.trans hr)
    exact hy

/-- A label that is left without a problem has no address so far; it is noted, and what waits for it
is filled in. -/
theorem Stage.noteLabel (ht : table.Sized .sectioned) (h : Stage table use done opener cs N a s)
    (hN : ∀ c ∈ cs, NameTable.afterRows .onePass table (c.after table) c.later = N)
    (hs : s.noteLabel l = .ok s') (hf : s'.found = []) :
    (∀ x, l.name? = some x → N.address? x = none) ∧
      Stage table use done opener (cs.map (·.extend ⟨a, l, opener.label⟩)) (N.label a l) a s' := by
  obtain ⟨ns, hns, hget⟩ := h.names
  cases hx : l.name? with
  | none =>
    have hnone : ∀ c : RowContext, ∀ x, c.Awaits table x → l.name? ≠ some x :=
      fun _ x _ => by simp [hx]
    obtain rfl : s = s' := by simpa [State.noteLabel, hx] using hs
    refine ⟨nofun, ?_⟩
    rw [NameTable.label_of_none hx]
    refine h.extend h.tables (fun y => by simp [hx]) ?_ fun c hc => (h.kept ht hc (hnone c)).2
    rw [h.drafts,
      List.map_congr_left fun c hc => (h.kept ht hc (r := ⟨a, l, opener.label⟩) (hnone c)).1]
  | some x =>
    obtain ⟨-, haddr, -, hfill⟩ := State.noteLabel_clean hns hx hs hf
    obtain ⟨-, ds, hds, waiting, hwaiting, rfl⟩ := State.fillWaiting_clean hfill hf
    have hget' :
        (ns.insert x ⟨some s.counter, (ns.get? x).bind (·.linkage)⟩).get? = N.label a l := by
      funext y
      rw [OrderedMap.get?_insert, h.counter, hget]
      by_cases hy : x = y
      · rw [if_pos hy, NameTable.label_self (hy ▸ hx), ← hy]
        rfl
      · rw [if_neg hy, NameTable.label_of_ne (fun e => hy (Option.some.inj (hx.symm.trans e)))]
    have hns' : (s.setAddress ns x).sections.get? s.current =
        some (ns.insert x ⟨some s.counter, (ns.get? x).bind (·.linkage)⟩) := by
      simp [State.setAddress, State.setNames]
    obtain ⟨hdrafts, hrelatives⟩ := h.filled ht hN (r := ⟨a, l, opener.label⟩) hx hns' hget' hds
    refine ⟨fun y hy => ?_,
      h.extend (fun k => hget' ▸ h.tables_insert _ k) (fun y => ?_) hdrafts hrelatives⟩
    · obtain rfl : x = y := Option.some.inj hy
      rw [← hget]
      exact haddr
    · rw [hwaiting]
      simp only [hx, Option.some.injEq]
      rfl

/-! ## Lines of a section -/

/-- A row that is read with the names at hand becomes the last one. -/
theorem Stage.push (h : Stage table use done opener cs N a s) {c : RowContext}
    (hp : RowFits table use c.row)
    (hrelatives : ∀ x, c.line.operands = [.relative x] → ∀ e, c.entryFor? table x = some e →
      e.linkage ≠ some .imported) {sections : Sections (Option Int)} {N' : NameTable}
        {waiting : Waiting}
    (htables : ∀ k, (sections.get? k).map (fun ns => ns.get?) =
      tableOf (tablesOf .onePass table done ++ [(opener.label, N')]) k)
    (hwaiting : ∀ x, waiting.get? x =
      if c.Awaits table x then some ((s.waiting.get? x).getD [] ++ [some s.drafts.length])
        else s.waiting.get? x)
    (b : Int) (visited : List Int) :
    Stage table use done opener (cs ++ [c]) N' b { s with
      counter := b
      visited
      drafts := s.drafts ++ [c.draft table]
      modified := s.modified ++ modifiedNames table c.row
      sections, waiting } := by
  refine { h with
    counter := rfl
    drafts := by simp [h.drafts]
    modified := by simp [h.modified]
    tables := htables
    waiting := fun x => ?_
    lines := fun d hd => ?_
    relatives := fun d hd => ?_ }
  · have hlength : s.drafts.length = s.headerPlace + 1 + cs.length := by
      rw [h.drafts, h.headerPlace]
      simp only [List.length_append, List.length_cons, List.length_map]
      omega
    have hx := h.waiting x
    rw [hwaiting, placesWhere_concat, hlength, hx]
    split
    · split
      · next hnil => simp [hnil]
      · simp
    · simp
  · rcases List.mem_append.1 hd with hd | hd
    · exact h.lines d hd
    · rw [List.mem_singleton.1 hd]
      exact hp
  · rcases List.mem_append.1 hd with hd | hd
    · exact h.relatives d hd
    · rw [List.mem_singleton.1 hd]
      exact hrelatives

namespace State

theorem waitForAll_eq {ops : List Operand} (h : s.waitForAll ops = .ok s') :
    ∃ sections waiting, s' = { s with sections, waiting } := by
  induction ops generalizing s with
  | nil => cases h; exact ⟨_, _, rfl⟩
  | cons op ops ih =>
    rw [waitForAll] at h
    cases hop : s.waitFor op with
    | error x => simp [hop] at h
    | ok s₁ =>
      simp only [hop] at h
      obtain ⟨sections, waiting, rfl⟩ := ih h
      unfold waitFor at hop
      split at hop
      · cases hop; exact ⟨_, _, rfl⟩
      · obtain ⟨ns, -, rfl⟩ := (map_eq_ok_iff _ _ _).1 hop
        split <;> exact ⟨_, _, rfl⟩

theorem found_of_waitForAll {ops : List Operand} (h : s.waitForAll ops = .ok s') :
    s'.found = s.found := by
  obtain ⟨sections, waiting, rfl⟩ := waitForAll_eq h
  rfl

theorem addCommand_clean {r : Draft} (hf : (s.addCommand r).found = []) :
    s.found = [] ∧ ∃ r', s.fill r = .ok r' ∧ s.addCommand r = s.add r' := by
  unfold addCommand at hf ⊢
  cases hr : s.fill r with
  | error x => simp [hr, report, add] at hf
  | ok r' =>
    simp only [hr] at hf
    exact ⟨hf, r', rfl, rfl⟩

theorem storageLine_clean {kind : Storage} (h : s.storageLine kind l = .ok s')
    (hf : s'.found = []) :
    s.found = [] ∧ (∃ al, kind.allot s.counter l.operands = .ok al ∧ al.problems = []) ∧
      s' = (s.add
        (storageDraft s.counter (kind.extent l.operands) (kind.digits? l.operands))).moveTo
          (s.counter + kind.extent l.operands) := by
  refine (Storage.clean_iff (fun s : State => s.found) (fun _ => rfl) (fun _ _ => rfl) fun al hal =>
    ?_).1 ⟨h, hf⟩
  rw [← Draft.ofAllotment_eq hal, ← (Storage.allot_eq hal).1]
  simp [report]

theorem linkedName?_eq_some_iff {x : String} :
    linkedName? l = some x ↔ l.name? = none ∧ onlyName? l.operands = some x := by
  unfold linkedName?
  cases l.name? <;> simp

theorem exportLine_clean (h : s.exportLine l = .ok s') (hf : s'.found = []) :
    s.found = [] ∧ l.name? = none ∧ ∃ ns x, s.sections.get? s.current = some ns ∧
      onlyName? l.operands = some x ∧
      (ns.get? x).bind (·.linkage) = none ∧
      s' = { s with
        sections :=
          s.sections.insert s.current (ns.insert x ⟨(ns.get? x).bind (·.address), some .exported⟩)
        drafts := s.drafts ++ [.definition (.direct x) [.direct x]]
        waiting := s.waiting.add x (some s.drafts.length) } := by
  unfold exportLine at h
  cases hx : linkedName? l with
  | none =>
    simp only [hx, Except.ok.injEq] at h
    subst h
    simp [report] at hf
  | some x =>
    obtain ⟨hname, hops⟩ := linkedName?_eq_some_iff.1 hx
    simp only [hx, map_eq_ok_iff, names_eq_ok_iff] at h
    obtain ⟨ns, hns, rfl⟩ := h
    unfold markExported at hf ⊢
    cases hg : ns.get? x with
    | none =>
      simp only [hg] at hf ⊢
      exact ⟨hf, hname, ns, x, hns, hops, by simp [hg], by simp [hg, setNames, add, lastPlace]⟩
    | some e =>
      simp only [hg] at hf ⊢
      split at hf
      · next he =>
        exact ⟨hf, hname, ns, x, hns,
          hops, by simp [hg, he], by simp [hg, he, setNames, add, lastPlace]⟩
      · simp [report, add] at hf

theorem importLine_clean (h : s.importLine l = .ok s') (hf : s'.found = []) :
    s.found = [] ∧ l.name? = none ∧ ∃ ns x, s.sections.get? s.current = some ns ∧
      onlyName? l.operands = some x ∧
      (ns.get? x).bind (·.linkage) = none ∧
      s' = { s with
        sections := s.sections.insert s.current (ns.insert x ⟨none, some .imported⟩)
        drafts := s.drafts ++ [.reference x] } := by
  unfold importLine at h
  cases hx : linkedName? l with
  | none =>
    simp only [hx, Except.ok.injEq] at h
    subst h
    simp [report] at hf
  | some x =>
    obtain ⟨hname, hops⟩ := linkedName?_eq_some_iff.1 hx
    simp only [hx, map_eq_ok_iff, names_eq_ok_iff] at h
    obtain ⟨ns, hns, rfl⟩ := h
    simp only [setNames, add, report, List.append_eq_nil_iff, Site.report_eq_nil_iff,
      ite_eq_right_iff, reduceCtorEq, imp_false, Bool.not_eq_true] at hf
    have hlinkage : (ns.get? x).bind (·.linkage) = none := by simpa using hf.2
    exact ⟨hf.1, hname, ns, x, hns, hops, hlinkage, by simp [setNames, add, report, hlinkage]⟩

theorem noteModified_eq {ops : List Operand} (h : s.noteModified ops = .ok s') :
    s' = { s with
      modified :=
        s.modified ++ if Addressing.ofOperands ops = Addressing.direct then ops.map fun o =>
          (s.counter, o.text) else [] } := by
  unfold noteModified at h
  split at h
  · next hd =>
    split at h
    · cases h; simp [hd]
    · cases h
  · next hd => cases h; simp [hd]

theorem commandLine_clean {op : Operation} (h : s.commandLine use op l = .ok s')
    (hf : s'.found = []) :
    s.found = [] ∧ (commandProblems .sectioned s.counter l.mnemonic op.size l.operands = .ok [] ∧
        nameUseProblems use l.operands = []) ∧
      (∃ f, Field.inOnePass dialect (s.scope (some "") (s.counter + op.size)) op.size l.operands =
        .ok f) ∧
      ∃ r, s.fill (.code s.counter op.size (some (codeByte op.opcode l.operands)) l.operands) =
        .ok r ∧
        waitForAll { s with
          counter := s.counter + op.size
          visited := s.visited ++ [s.counter + op.size]
          drafts := s.drafts ++ [r]
          modified := s.modified ++
            if Addressing.ofOperands l.operands = Addressing.direct then l.operands.map fun o =>
              (s.counter, o.text) else []
          } l.operands = .ok s' := by
  unfold commandLine at h
  cases hc : commandProblems .sectioned s.counter l.mnemonic op.size l.operands with
  | error x => simp [hc] at h
  | ok qs =>
    cases hin :
      Field.inOnePass dialect (s.scope (some "") (s.counter + op.size)) op.size l.operands with
    | error x => simp [hc, hin] at h
    | ok f =>
      simp only [hc, hin] at h
      cases hm :
          ((s.report qs).addCommand
            (.code s.counter op.size (some (codeByte op.opcode l.operands))
              l.operands)).noteModified l.operands with
      | error x => simp [hm] at h
      | ok s₁ =>
        simp only [hm] at h
        have hmodified := noteModified_eq hm
        have hf₁ := (found_of_waitForAll h).symm.trans hf
        simp only [report, List.append_eq_nil_iff, Site.report_eq_nil_iff] at hf₁
        obtain ⟨hf₁, hu⟩ := hf₁
        rw [hmodified] at hf₁
        obtain ⟨hf₂, r, hr, hadd⟩ := addCommand_clean hf₁
        simp only [report, List.append_eq_nil_iff, Site.report_eq_nil_iff] at hf₂
        obtain ⟨hf₂, rfl⟩ := hf₂
        refine ⟨hf₂, ⟨rfl, hu⟩, ⟨f, rfl⟩, r, hr, ?_⟩
        rw [hmodified, hadd] at h
        simpa [hu, report, moveTo, add] using h

end State

/-- The context of a line that has just been read. -/
def freshContext (table : OpTable) (opener : Line) (N : NameTable) (a : Int) (l : Line) :
    RowContext :=
  ⟨N, (⟨a, l, opener.label⟩, l.extent .sectioned table), []⟩

theorem Stage.storageLine (h : Stage table use done opener cs (N.label a l) a s) {kind : Storage}
    (hst : Statement.ofMnemonic .sectioned table l.mnemonic = .storage kind)
    (hs : s.storageLine kind l = .ok s') (hf : s'.found = []) :
    Stage table use done opener (cs ++ [freshContext table opener N a l])
      (N.after .onePass table a l) (a + l.extent .sectioned table) s' := by
  obtain ⟨-, ⟨al, hal, hp⟩, rfl⟩ := State.storageLine_clean hs hf
  obtain rfl := h.counter
  have hexp := Line.not_exports (l := l) (by rw [hst]; simp)
  have himp := Line.not_imports (l := l) (by rw [hst]; simp)
  have href := Line.not_refersTo (l := l) (fun op => by rw [hst]; simp)
  have hfit : l.LinkFits table use s.counter := .inl (by rw [Line.Fits, hst]; exact ⟨al, hal, hp⟩)
  have hlegible : l.Legible .sectioned table := fun op hop => by simp [hst] at hop
  have hdraft : (freshContext table opener N s.counter l).draft table =
      storageDraft s.counter (kind.extent l.operands) (kind.digits? l.operands) := by
    simp only [freshContext, RowContext.draft, hst, extent_of_storage hst]
  have hmodified : modifiedNames table (freshContext table opener N s.counter l).row = [] := by
    simp only [freshContext, modifiedNames, hst]
  have hstage := h.push (c := freshContext table opener N s.counter l)
    ⟨hfit, hlegible, rfl⟩ (fun x hx => absurd (hfit.refersTo_of_relative hx) (href x)) h.tables
    (fun x => by rw [if_neg fun hw => hw.1.elim (hexp x) (href x)])
    (s.counter + l.extent .sectioned table) (s.visited ++ [s.counter + l.extent .sectioned table])
  rw [hdraft, hmodified, List.append_nil] at hstage
  rw [NameTable.after_eq_label hexp himp fun _ => href]
  simpa [State.moveTo, State.add, extent_of_storage hst] using hstage

theorem Stage.exportLine (h : Stage table use done opener cs (N.label a l) a s)
    (hst : Statement.ofMnemonic .sectioned table l.mnemonic = .exportName)
    (hs : s.exportLine l = .ok s') (hf : s'.found = []) :
    (∀ x, l.Exports x ∨ l.Imports x → l.name? = none ∧ N.linkage? x = none) ∧
      Stage table use done opener (cs ++ [freshContext table opener N a l])
        (N.after .onePass table a l) (a + l.extent .sectioned table) s' := by
  obtain ⟨ns, hns, hget⟩ := h.names
  obtain ⟨-, hname, ns', x, hns', hx, hlinkage, rfl⟩ := State.exportLine_clean hs hf
  obtain rfl : ns = ns' := Option.some.inj (hns.symm.trans hns')
  obtain rfl := h.counter
  have hm := (Statement.ofMnemonic_eq_exportName_iff table _).1 hst
  have hops : l.operands = [.direct x] := onlyName?_eq_some_iff.1 hx
  have hexp : ∀ y, l.Exports y ↔ x = y := fun y => by simp [Line.Exports, hm, hx]
  have himp := Line.not_imports (l := l) (by rw [hst]; simp)
  have href := Line.not_refersTo (l := l) (fun op => by rw [hst]; simp)
  have hfit : l.LinkFits table use s.counter := .inr ⟨.inl hm, hname, x, hops⟩
  have hlegible : l.Legible .sectioned table := fun op hop => by simp [hst] at hop
  have hext : l.extent .sectioned table = 0 := by simp only [Line.extent, hst]
  have hfree : (N.label s.counter l).linkage? x = none := by rw [← hget]; exact hlinkage
  have hafter :
      (ns.insert x ⟨(ns.get? x).bind (·.address), some .exported⟩).get? =
        N.after .onePass table s.counter l := by
    funext y
    rw [OrderedMap.get?_insert, hget]
    by_cases hy : x = y
    · subst hy
      simp [NameTable.after, hexp, hfree, NameTable.address?]
    · simp [NameTable.after, hexp, himp, href, hy]
  have hentry : (freshContext table opener N s.counter l).entryFor? table x = none :=
    if_pos ((hexp x).2 rfl)
  have hawaits : ∀ y, (freshContext table opener N s.counter l).Awaits table y ↔ x = y := by
    intro y
    refine ⟨fun hw => hw.1.elim (hexp y).1 fun hr => absurd hr (href y), ?_⟩
    rintro rfl
    exact ⟨.inl ((hexp x).2 rfl), hentry⟩
  have hdraft :
      (freshContext table opener N s.counter l).draft table = .definition (.direct x)
        [.direct x] := by
    have hopen :
        (Operand.direct x).settled ((freshContext table opener N s.counter l).reading table) =
          .direct x := by
      simp [Operand.settled, Operand.value?, RowContext.reading, Reading.ofEntries, hentry]
    have hline : (freshContext table opener N s.counter l).line = l := rfl
    simp only [RowContext.draft, hline, hst, hops, onlyName?, Option.getD_some, List.map_cons,
      List.map_nil, hopen]
  have hmodified : modifiedNames table (freshContext table opener N s.counter l).row = [] := by
    simp only [freshContext, modifiedNames, hst]
  have hwaiting : ∀ y, (s.waiting.add x (some s.drafts.length)).get? y =
      if (freshContext table opener N s.counter l).Awaits table y
      then some ((s.waiting.get? y).getD [] ++ [some s.drafts.length]) else s.waiting.get? y := by
    intro y
    by_cases hy : x = y <;> simp [hawaits, Waiting.add, hy]
  have hstage := h.push (c := freshContext table opener N s.counter l) ⟨hfit, hlegible, rfl⟩
    (fun y hy => absurd (hfit.refersTo_of_relative hy) (href y))
      (fun k => hafter ▸ h.tables_insert _ k) hwaiting
    s.counter s.visited
  rw [hdraft, hmodified, List.append_nil] at hstage
  rw [hext, Int.add_zero]
  refine ⟨fun y hy => ?_, hstage⟩
  obtain rfl := hy.elim (hexp y).1 fun h => absurd h (himp y)
  rw [NameTable.linkage?_label] at hfree
  exact ⟨hname, hfree⟩

theorem Stage.importLine (h : Stage table use done opener cs (N.label a l) a s)
    (hst : Statement.ofMnemonic .sectioned table l.mnemonic = .importName)
    (hs : s.importLine l = .ok s') (hf : s'.found = []) :
    (∀ x, l.Exports x ∨ l.Imports x → l.name? = none ∧ N.linkage? x = none) ∧
      Stage table use done opener (cs ++ [freshContext table opener N a l])
        (N.after .onePass table a l) (a + l.extent .sectioned table) s' := by
  obtain ⟨ns, hns, hget⟩ := h.names
  obtain ⟨-, hname, ns', x, hns', hx, hlinkage, rfl⟩ := State.importLine_clean hs hf
  obtain rfl : ns = ns' := Option.some.inj (hns.symm.trans hns')
  obtain rfl := h.counter
  have hm := (Statement.ofMnemonic_eq_importName_iff table _).1 hst
  have hops : l.operands = [.direct x] := onlyName?_eq_some_iff.1 hx
  have hexp := Line.not_exports (l := l) (by rw [hst]; simp)
  have himp : ∀ y, l.Imports y ↔ x = y := fun y => by simp [Line.Imports, hm, hx]
  have href := Line.not_refersTo (l := l) (fun op => by rw [hst]; simp)
  have hfit : l.LinkFits table use s.counter := .inr ⟨.inr hm, hname, x, hops⟩
  have hlegible : l.Legible .sectioned table := fun op hop => by simp [hst] at hop
  have hext : l.extent .sectioned table = 0 := by simp only [Line.extent, hst]
  have hafter : (ns.insert x ⟨none, some .imported⟩).get? = N.after .onePass table s.counter l := by
    funext y
    rw [OrderedMap.get?_insert, hget]
    by_cases hy : x = y <;> simp [NameTable.after, hexp, himp, href, hy]
  have hdraft : (freshContext table opener N s.counter l).draft table = .reference x := by
    simp only [freshContext, RowContext.draft, hst, hx, Option.getD_some]
  have hmodified : modifiedNames table (freshContext table opener N s.counter l).row = [] := by
    simp only [freshContext, modifiedNames, hst]
  have hstage := h.push (c := freshContext table opener N s.counter l) ⟨hfit, hlegible, rfl⟩
    (fun y hy => absurd (hfit.refersTo_of_relative hy) (href y))
      (fun k => hafter ▸ h.tables_insert _ k)
    (fun y => by rw [if_neg fun hw => hw.1.elim (hexp y) (href y)]) s.counter s.visited
  rw [hdraft, hmodified, List.append_nil] at hstage
  rw [hext, Int.add_zero]
  refine ⟨fun y hy => ?_, hstage⟩
  obtain rfl := hy.elim (fun h => absurd h (hexp y)) (himp y).1
  rw [← NameTable.linkage?_label N s.counter l, ← hget]
  exact ⟨hname, hlinkage⟩

theorem State.waitForAll_eq_self {ops : List Operand} (h : ∀ o ∈ ops, o.referredName? = none) :
    s.waitForAll ops = .ok s := by
  induction ops with
  | nil => rfl
  | cons o ops ih =>
    rw [State.waitForAll, State.waitFor, h o List.mem_cons_self]
    exact ih fun o' ho' => h o' (List.mem_cons_of_mem _ ho')

theorem State.waitForAll_cases (ht : table.Sized .sectioned) (hfit : l.Fits .sectioned table use a)
    (hop : (l.operation? table).isSome = true) (hs : s.waitForAll l.operands = .ok s')
    {ns : SectionNames (Option Int)} (hns : s.sections.get? s.current = some ns) :
    ∃ sections waiting ns', s' = { s with sections, waiting } ∧ sections.get? s.current = some ns' ∧
      (∀ k, s.current ≠ k → sections.get? k = s.sections.get? k) ∧
      (∀ x, ns'.get? x = if l.RefersTo table x then some ((ns.get? x).getD ⟨none, none⟩)
        else ns.get? x) ∧
      ∀ x, waiting.get? x = if l.RefersTo table x ∧ ns.get? x = none
        then some ((s.waiting.get? x).getD [] ++ [lastPlace s.drafts.length])
          else s.waiting.get? x := by
  have hrefers : ∀ x, l.RefersTo table x ↔ referenceOf l.operands = some x :=
    fun x => and_iff_right hop
  simp only [hrefers]
  cases hx : referenceOf l.operands with
  | none =>
    rw [waitForAll_eq_self (referredName?_eq_none ht hfit hx)] at hs
    cases hs
    exact ⟨_, _, ns, rfl, hns, fun _ _ => rfl, by simp, by simp⟩
  | some x =>
    obtain ⟨o, ho, hname⟩ : ∃ o, l.operands = [o] ∧ o.referredName? = some x := by
      obtain ⟨op, -, ⟨h, -⟩ | ⟨h, -⟩⟩ := command_of_reference ht hfit hx <;> exact ⟨_, h, rfl⟩
    simp only [ho, waitForAll, waitFor, hname, names_eq_ok_iff.2 hns, map_ok, Except.ok.injEq] at hs
    subst hs
    cases hg : ns.get? x with
    | some e =>
      refine ⟨s.sections, s.waiting, ns, by simp [OrderedMap.contains, hg], hns, fun _ _ => rfl,
        fun y => ?_, fun y => ?_⟩
      · by_cases hy : x = y
        · subst hy; simp [hg]
        · simp [hy]
      · by_cases hy : x = y
        · subst hy; simp [hg]
        · simp [hy]
    | none =>
      refine ⟨_, _,
        ns.insert x
          ⟨none, none⟩, by simp [OrderedMap.contains, hg, setNames]; exact ⟨rfl, rfl⟩, by
            simp, fun k hk => by simp [hk], fun y => ?_, fun y => ?_⟩
      · by_cases hy : x = y
        · subst hy; simp [hg]
        · simp [hy]
      · by_cases hy : x = y
        · subst hy; simp [hg, Waiting.add]
        · simp [hy, Waiting.add]

/-- The context of a command reads the names at hand. -/
theorem entryFor?_freshContext {op : Operation}
    (hst : Statement.ofMnemonic .sectioned table l.mnemonic = .command op) (opener : Line)
    (N : NameTable) (a : Int) :
    (freshContext table opener N a l).entryFor? table = N.label a l := by
  funext x
  have hexp : ¬ l.Exports x := Line.not_exports (by rw [hst]; simp) x
  exact (if_neg hexp).trans (Option.or_none ..)

theorem Stage.commandLine (ht : table.Sized .sectioned)
    (h : Stage table use done opener cs (N.label a l) a s) {op : Operation}
    (hst : Statement.ofMnemonic .sectioned table l.mnemonic = .command op)
    (hs : s.commandLine use op l = .ok s') (hf : s'.found = []) :
    Stage table use done opener (cs ++ [freshContext table opener N a l])
      (N.after .onePass table a l) (a + l.extent .sectioned table) s' := by
  obtain ⟨ns, hns, hget⟩ := h.names
  obtain ⟨-, hc, ⟨f, hin⟩, r, hr, hwait⟩ := State.commandLine_clean hs hf
  obtain rfl := h.counter
  have hop : l.operation? table = some op := Line.operation?_eq_some_iff.2 hst
  have hexp := Line.not_exports (l := l) (by rw [hst]; simp)
  have himp := Line.not_imports (l := l) (by rw [hst]; simp)
  have hfit : l.Fits .sectioned table use s.counter := by rw [Line.Fits, hst]; exact hc
  have hadm := hfit.admitted ht hst
  have hentry := entryFor?_freshContext hst opener N s.counter
  have hext := extent_of_command hst
  have hlegible : l.Legible .sectioned table := by
    intro op' hop'
    by_contra hno
    obtain ⟨x, hx⟩ := Field.pending_error (FieldWidth.ofResolved? op.size l.operands)
      (s.scope (some "") (s.counter + op.size)) hadm hno
    cases hin.symm.trans hx
  have hdraft : r = (freshContext table opener N s.counter l).draft table := by
    simp only [State.fill, Draft.fill, map_eq_ok_iff] at hr
    obtain ⟨vs, hvs, rfl⟩ := hr
    rw [Draft.eq_of_settleAll (Stage.knows hns _) hvs, hget]
    simp only [RowContext.draft, RowContext.reading, hentry]
    simp only [freshContext, hst, hext]
  have hrelatives : ∀ x, l.operands = [.relative x] →
      ∀ e, (freshContext table opener N s.counter l).entryFor? table x = some e →
      e.linkage ≠ some .imported := by
    intro x hx e he himported
    have hx' : NameTable.Imported ns.get? x := by
      rw [hentry] at he
      rw [hget, NameTable.Imported, NameTable.linkage?, he]
      exact himported
    have hrel :
        (s.scope s.current (s.counter + op.size)).relative x = .error .importedDisplacement :=
      Scope.linkedRelative_imported hns hx' _
    simp [State.fill, Draft.fill, hx, Draft.settleAll, Draft.settle, Operand.value, hrel,
      State.isUndefined] at hr
  obtain ⟨sections, waiting, ns', rfl, hns', hrest, hget', hwaiting⟩ :=
    State.waitForAll_cases ht hfit (by simp [hop]) hwait hns
  have hafter : ns'.get? = N.after .onePass table s.counter l := by
    funext x
    rw [hget', hget]
    simp [NameTable.after, hexp, himp]
  have hmodified : modifiedNames table (freshContext table opener N s.counter l).row =
      if Addressing.ofOperands l.operands = Addressing.direct then l.operands.map fun o =>
        (s.counter, o.text) else [] := by
    simp only [freshContext, modifiedNames, hst]
    rfl
  have hawaits : ∀ x, waiting.get? x = if (freshContext table opener N s.counter l).Awaits table x
      then some ((s.waiting.get? x).getD [] ++ [some s.drafts.length]) else s.waiting.get? x := by
    intro x
    have hiff : (freshContext table opener N s.counter l).Awaits table x ↔ l.RefersTo table x ∧
        ns.get? x = none := by
      rw [RowContext.Awaits, hentry, hget]
      exact and_congr_left fun _ => or_iff_right (hexp x)
    rw [hwaiting]
    simp [hiff, lastPlace]
  have hstage :=
    h.push (c := freshContext table opener N s.counter l) ⟨.inl hfit, hlegible, rfl⟩ hrelatives
      (fun k => hafter ▸ h.tables_of hns' hrest k) hawaits (s.counter + op.size)
        (s.visited ++ [s.counter + op.size])
  rw [← hdraft, hmodified] at hstage
  rwa [hext]

end Assembler.OnePass.Sectioned
