import Assembler.Proofs.BackPatching
import Assembler.Proofs.Records
import Assembler.Proofs.SectionedObject

/-! # One pass and two passes over sections that refer back

In a section that refers back only, one pass has met every name when a command uses it.  Then both
ways of assembling leave the same names (`ControlSection.names_onePass`) and the same digits in
every record (`recordsOf_agree`), so that they agree on all programs that both accept
(`sectioned_onePass_agrees`). -/

namespace Assembler
set_option autoImplicit false

/-- Every name in an operand of a command stands in the label of the command or of a line before it
in the section, or is imported by a line before it. -/
def RefersBack (table : OpTable) (sec : ControlSection) : Prop :=
  ∀ pre l post, sec.body = pre ++ l :: post → (l.operation? table).isSome = true → ∀ o ∈ l.operands,
    ∀ x ∈ o.referredName?, l.name? = some x ∨ ∃ q ∈ pre, q.name? = some x ∨ q.Imports x

theorem refersBack_iff (table : OpTable) (sec : ControlSection) : RefersBack table sec ↔
    ∀ k : Fin sec.body.length, ((sec.body.get k).operation? table).isSome = true →
      ∀ o ∈ (sec.body.get k).operands, ∀ x ∈ o.referredName?, (sec.body.get k).name? = some x ∨
        ∃ q ∈ sec.body.take k, q.name? = some x ∨ q.Imports x := by
  constructor
  · intro h k
    exact h _ _ (sec.body.drop (k + 1)) (by simp)
  · intro h pre l post hcut
    have hk : pre.length < sec.body.length := by simp [hcut]
    have hget : sec.body.get ⟨pre.length, hk⟩ = l := by simp [hcut]
    have htake : sec.body.take pre.length = pre := by simp [hcut]
    have hline := h ⟨pre.length, hk⟩
    rwa [hget, htake] at hline

instance (table : OpTable) : DecidablePred (RefersBack table) :=
  fun sec => decidable_of_iff' _ (refersBack_iff table sec)

theorem RefersBack.rows {table : OpTable} {sec : ControlSection} (h : RefersBack table sec)
    {pre post : List Row} {r : Row} (hcut : sec.nameRows table = pre ++ r :: post) {x : String}
    (hx : r.line.RefersTo table x) :
    r.line.name? = some x ∨ ∃ q ∈ pre, q.line.name? = some x ∨ q.line.Imports x := by
  have hend : r.line ∉ (sec.endRows table).map (·.line) := by
    intro hmem
    refine OnePass.Sectioned.mnemonic_ne_end (.inr hx) ?_
    unfold ControlSection.endRows at hmem
    split at hmem
    · next hl => rwa [show r.line = sec.closer by simpa using hmem]
    · cases hmem
  have hlines := congrArg (List.map (·.line)) hcut
  rw [ControlSection.nameRows, List.map_append, List.map_map, List.map_append, List.map_cons]
    at hlines
  have hbody : (sec.rows table).map ((·.line) ∘ (·.1)) = sec.body := placed_map_line _ _ _ _ _
  rw [hbody] at hlines
  obtain ⟨c, hc⟩ : ∃ c, sec.body = pre.map (·.line) ++ r.line :: c := by
    rcases List.append_eq_append_iff.1 hlines with ⟨c, -, hc⟩ | ⟨c, hc, hrest⟩
    · exact absurd (by rw [hc]; simp) hend
    · cases c with
      | nil =>
        rw [List.nil_append] at hrest
        exact absurd (by rw [← hrest]; simp) hend
      | cons k c =>
        obtain ⟨rfl, -⟩ := List.cons.inj hrest
        exact ⟨c, hc⟩
  obtain ⟨o, ho, hname⟩ := mem_of_referenceOf hx.2
  rcases h _ _ _ hc hx.1 o ho x hname with hl | ⟨k, hk, hkx⟩
  · exact .inl hl
  · obtain ⟨q, hq, rfl⟩ := List.mem_map.1 hk
    exact .inr ⟨q, hq, hkx⟩

/-! ## Names -/

namespace NameTable

variable {table : OpTable} {N : NameTable} {a : Int} {l : Line} {x : String} {rs : List Row}

theorem after_onePass (h : ∀ x, l.RefersTo table x → (N.label a l x).isSome = true) :
    N.after .onePass table a l = N.after .twoPass table a l := by
  funext x
  by_cases href : l.RefersTo table x
  · obtain ⟨e, he⟩ := Option.isSome_iff_exists.1 (h x href)
    simp [after, href, he]
  · simp [after, href]

theorem afterRows_onePass (h : ∀ pre r post, rs = pre ++ r :: post → ∀ x, r.line.RefersTo table x →
      r.line.name? = some x ∨ ∃ q ∈ pre, q.line.name? = some x ∨ q.line.Imports x) :
    afterRows .onePass table (fun _ => none) rs = afterRows .twoPass table (fun _ => none) rs := by
  induction rs using List.reverseRecOn with
  | nil => rfl
  | append_singleton rs r ih =>
    have ih := ih fun pre q post hcut => h pre q (post ++ [r]) (by simp [hcut])
    rw [afterRows_append, afterRows_append, ih]
    refine after_onePass fun x hx => ?_
    rcases h rs r [] rfl x hx with hname | ⟨q, hq, hqx⟩
    · rw [label_self hname]
      rfl
    · by_cases hname : r.line.name? = some x
      · rw [label_self hname]
        rfl
      · rw [label_of_ne hname]
        exact isSome_afterRows.2 (.inr ⟨q, hq, by tauto⟩)

end NameTable

theorem ControlSection.names_onePass {table : OpTable} {sec : ControlSection}
    (h : RefersBack table sec) :
    sec.names .onePass table = sec.names .twoPass table :=
  NameTable.afterRows_onePass fun _ _ _ hcut _ hx => h.rows hcut hx

/-! ## Values -/

theorem Reading.direct_ofNames {N : NameTable} {x : String} {v : Int} (h : N.address? x = some v)
    (next : Int) :
    (ofNames N next).direct x = some v := by
  obtain ⟨e, he, hv⟩ := Option.bind_eq_some_iff.1 h
  simp [ofNames, he, hv]

theorem Reading.relative_ofNames {N : NameTable} {x : String} {v : Int} (h : N.address? x = some v)
    (next : Int) :
    (ofNames N next).relative x = some (displacement v next) := by
  obtain ⟨e, he, hv⟩ := Option.bind_eq_some_iff.1 h
  simp [ofNames, he, hv]

section

open OnePass OnePass.Sectioned

variable {table : OpTable} {use : NameUse} {sec : ControlSection} {x : String} {pre post : List Row}
  {r : Row}

theorem address?_of_firstAddress (h : TwoPass.Sectioned.Listed table use sec) {v : Int}
    (hv : firstAddress (sec.nameRows table) x = some v) :
    (sec.names .twoPass table).address? x = some v := by
  obtain ⟨q, hq, hqx, hqv⟩ := exists_of_firstAddress hv
  exact (NameTable.address?_eq_some_iff h.compatible h.bare).2 ⟨q, hq, hqx, hqv⟩

theorem not_imports_of_carried (h : TwoPass.Sectioned.Listed table use sec) {q e : Row}
    (hq : q ∈ sec.nameRows table) (he : e ∈ sec.nameRows table) (hqx : q.line.name? = some x) :
    ¬ e.line.Imports x :=
  NameTable.not_imports_of_name? h.compatible h.bare hq he hqx

theorem direct_of_directValue? (h : TwoPass.Sectioned.Listed table use sec) {v : Int}
    (hv : directValue? (sec.nameRows table) x = some v) (next : Int) :
    (Reading.ofNames (sec.names .twoPass table) next).direct x = some v := by
  unfold directValue? at hv
  split at hv
  · next himp =>
    obtain rfl := Option.some.inj hv
    obtain ⟨q, hq, hqx⟩ := himp
    have hsome : (sec.names .twoPass table x).isSome = true :=
      NameTable.isSome_afterRows.2 (.inr ⟨q, hq, .inr (.inr (.inl hqx))⟩)
    obtain ⟨e, he⟩ := Option.isSome_iff_exists.1 hsome
    have hnone : (sec.names .twoPass table).address? x = none := by
      refine Option.eq_none_iff_forall_ne_some.2 fun b hb => ?_
      obtain ⟨r, hr, hrx, -⟩ := (NameTable.address?_eq_some_iff h.compatible h.bare).1 hb
      exact not_imports_of_carried h hr hq hrx hqx
    rw [NameTable.address?, he, Option.bind_some] at hnone
    simp [Reading.ofNames, he, hnone]
  · exact Reading.direct_ofNames (address?_of_firstAddress h hv) next

/-! ## Digits -/

theorem not_overlooked (hback : RefersBack table sec) (hcut : sec.nameRows table = pre ++ r :: post)
    (hx : r.line.RefersTo table x) : ¬ Overlooked table pre r x := by
  rintro ⟨-, himp, hname⟩
  rcases hback.rows hcut hx with hr | ⟨q, hq, hqx | hqx⟩
  · exact hname r (by simp) hr
  · exact hname q (List.mem_append_left _ hq) hqx
  · exact himp q hq hqx

theorem not_withdrawn (h : TwoPass.Sectioned.Listed table use sec)
    (hcut : sec.nameRows table = pre ++ r :: post) :
    ¬ Withdrawn pre r post x := by
  rintro ⟨mid, e, rest, rfl, he, q, hq, hqx, -⟩
  have hmem : q ∈ sec.nameRows table := by
    rw [hcut]
    simp only [List.mem_append, List.mem_cons] at hq ⊢
    tauto
  exact not_imports_of_carried h hmem (by rw [hcut]; simp) hqx he

theorem direct_reading (h : TwoPass.Sectioned.Listed table use sec)
    (hfits : SectionFits table use sec) (hback : RefersBack table sec)
    (hcut : sec.nameRows table = pre ++ r :: post) (hx : r.line.RefersTo table x)
    (hexp : ¬ r.line.Exports x) (himp : ¬ r.line.Imports x) (next : Int) :
    ((contextAt table pre r (r.line.extent .sectioned table) post).reading table).direct x =
      (Reading.ofNames (sec.names .twoPass table) next).direct x := by
  obtain ⟨v, hv, -, hvalue⟩ :=
    direct_contextAt (hcut ▸ hfits.taken) hexp himp (hfits.entryFor?_ne_none hcut (.inr hx))
      (not_overlooked hback hcut hx)
  have hdirect := hvalue (not_withdrawn h hcut)
  rw [← hcut] at hdirect
  rw [direct_of_directValue? h hdirect]
  exact hv

theorem relative_reading (h : TwoPass.Sectioned.Listed table use sec)
    (hfits : SectionFits table use sec) (hback : RefersBack table sec)
    (hcut : sec.nameRows table = pre ++ r :: post) (hx : r.line.RefersTo table x)
    (hops : r.line.operands = [.relative x]) (hexp : ¬ r.line.Exports x)
    (himp : ¬ r.line.Imports x) :
    ((contextAt table pre r (r.line.extent .sectioned table) post).reading table).relative x =
      (Reading.ofNames (sec.names .twoPass table)
        (r.address + r.line.extent .sectioned table)).relative x := by
  have hmem := SectionFits.mem_contexts hcut (mnemonic_ne_end (.inr hx))
  obtain ⟨e, he⟩ := Option.ne_none_iff_exists'.1 (hfits.entryFor?_ne_none hcut (.inr hx))
  obtain ⟨b, hb, hvalue⟩ :=
    relative_contextAt (hcut ▸ hfits.taken) hexp himp he (hfits.relatives _ hmem x hops e he)
      (not_overlooked hback hcut hx) (r.address + r.line.extent .sectioned table)
  rw [← hcut] at hb
  rw [Reading.relative_ofNames (address?_of_firstAddress h hb), ← hvalue]
  exact congrArg (Option.bind · _) he

theorem export_reading (h : TwoPass.Sectioned.Listed table use sec)
    (hfits : SectionFits table use sec) (hcut : sec.nameRows table = pre ++ r :: post)
    (hx : r.line.Exports x) (next : Int) :
    ((contextAt table pre r (r.line.extent .sectioned table) post).reading table).direct x =
      (Reading.ofNames (sec.names .twoPass table) next).direct x := by
  have hne := hfits.entryFor?_ne_none hcut (.inl hx)
  rw [entryFor?_contextAt_of_exports hx] at hne
  obtain ⟨e, he⟩ := Option.ne_none_iff_exists'.1 hne
  obtain ⟨mid, q, rest, rfl, -, hq, rfl⟩ := exists_of_firstEntry he
  have hmem : q ∈ sec.nameRows table := by
    rw [hcut]
    simp
  have hnot : ∀ e ∈ pre ++ r :: mid, ¬ e.line.Imports x := fun e he => by
    refine not_imports_of_carried h hmem ?_ hq
    rw [hcut]
    simp only [List.mem_append, List.mem_cons] at he ⊢
    tauto
  have hlinkage : (NameTable.afterRows .onePass table
      ((contextAt table pre r (r.line.extent .sectioned table) (mid ++ q :: rest)).after table)
        mid).linkage? x ≠
        some .imported := by
    intro himported
    rcases NameTable.imported_afterRows.1 himported with hafter | ⟨e, he, hi⟩
    · rcases NameTable.imported_after.1 hafter with hpre | hr
      · obtain ⟨e, he, hi⟩ := NameTable.imported_afterRows_empty.1 hpre
        exact hnot e (List.mem_append_left _ he) hi
      · exact hnot r (by simp) hr
    · exact hnot e (by simp [he]) hi
  have haddress : (sec.names .twoPass table).address? x = some q.address :=
    (NameTable.address?_eq_some_iff h.compatible h.bare).2 ⟨q, hmem, hq, rfl⟩
  have hread := (entryFor?_contextAt_of_exports hx).trans he
  rw [Reading.direct_ofNames haddress]
  exact (congrArg (Option.bind · Entry.direct?) hread).trans (if_neg hlinkage)

theorem linkedField_reading (ht : table.Sized .sectioned)
    (h : TwoPass.Sectioned.Listed table use sec) (hfits : SectionFits table use sec)
    (hback : RefersBack table sec) (hcut : sec.nameRows table = pre ++ r :: post)
    (hfit : r.line.LinkFits table use r.address) :
    linkedField table ((contextAt table pre r (r.line.extent .sectioned table) post).reading table)
        (r, r.line.extent .sectioned table) =
      TwoPass.SectionedCode.fieldIn table sec (r, r.line.extent .sectioned table) := by
  unfold TwoPass.SectionedCode.fieldIn linkedField
  have hexports : Statement.ofMnemonic .sectioned table r.line.mnemonic ≠ .exportName →
      ∀ x, ¬ r.line.Exports x :=
    Line.not_exports
  have himports : Statement.ofMnemonic .sectioned table r.line.mnemonic ≠ .importName →
      ∀ x, ¬ r.line.Imports x :=
    Line.not_imports
  generalize hst : Statement.ofMnemonic .sectioned table r.line.mnemonic = st at hexports himports
  cases st with
  | command op =>
    have hop : (r.line.operation? table).isSome = true := by
      rw [Line.operation?_eq_some_iff.2 hst]; rfl
    have hexp := hexports (by simp)
    have himp := himports (by simp)
    refine operandDigits?_congr (hfit.admitted ht hst) (fun x hops => ?_) fun x hops => ?_
    · exact direct_reading h hfits hback hcut ⟨hop, by rw [hops]; rfl⟩ (hexp x) (himp x) _
    · exact relative_reading h hfits hback hcut ⟨hop, by rw [hops]; rfl⟩ hops (hexp x) (himp x)
  | exportName =>
    obtain ⟨-, y, hy⟩ := hfit.operands_of_export hst
    have hadm : Admitted 4 r.line.operands := by rw [hy]; exact .address y
    refine operandDigits?_congr hadm (fun x hops => ?_) fun x hops => ?_
    · refine export_reading h hfits hcut ⟨(Statement.ofMnemonic_eq_exportName_iff _ _).1 hst, ?_⟩ _
      exact onlyName?_eq_some_iff.2 hops
    · simp [hy] at hops
  | _ => rfl

/-! ## Records -/

theorem record_context (ht : table.Sized .sectioned) (h : TwoPass.Sectioned.Listed table use sec)
    (hfits : SectionFits table use sec) (hback : RefersBack table sec) {c : RowContext}
    (hc : c ∈ contextsOf table sec) :
    c.record table = linkedRecord table c.row
      ((TwoPass.SectionedCode.fieldIn table sec c.row).getD "") := by
  obtain ⟨hmem, pre, post, hcut, heq⟩ := exists_of_mem_contexts hc
  have hfit := h.fits c.row hmem
  have hrow : c.row = (c.row.1, c.row.1.line.extent .sectioned table) := by
    rw [← snd_of_mem_placed _ _ _ hmem]
  have hfield := linkedField_reading ht h hfits hback hcut hfit
  rw [← hrow] at hfield
  have hctx : c = contextAt table pre c.row.1 (c.row.1.line.extent .sectioned table) post := by
    rw [contextAt, ← hrow]
    exact heq
  rw [RowContext.record, ← hfield, ← hctx]

/-- Both ways of assembling give records that say the same. -/
theorem recordsOf_agree (ht : table.Sized .sectioned) (h : TwoPass.Sectioned.Listed table use sec)
    (hfits : SectionFits table use sec) (hback : RefersBack table sec) :
    (TwoPass.SectionedCode.recordsOf table sec).map (·.fields .linked) =
      (OnePass.Sectioned.recordsOf table sec).map (·.fields .drafted) := by
  have hrows : (contextsOf table sec).map (·.record table) = (sec.rows table).map fun p =>
      linkedRecord table p ((TwoPass.SectionedCode.fieldIn table sec p).getD "") := by
    rw [← contexts_map_row table (fun _ => none) (sec.rows table) (sec.endRows table), List.map_map]
    exact List.map_congr_left fun c hc => record_context ht h hfits hback hc
  have hstyle : ∀ o : ObjectRecord, o.fields .linked = o.fields .drafted := by
    intro o
    cases o <;> rfl
  have hmodified :
      ∀ m, (TwoPass.SectionedCode.modificationRecord (sec.names .twoPass table) m).fields .linked =
        (OnePass.Sectioned.modificationRecord (sec.names .twoPass table) m).fields .drafted := by
    intro m
    simp only [TwoPass.SectionedCode.modificationRecord, OnePass.Sectioned.modificationRecord,
      ObjectRecord.fields, Option.filter_filter, Bool.and_self]
  rw [TwoPass.SectionedCode.recordsOf, OnePass.Sectioned.recordsOf, hrows,
    ControlSection.names_onePass hback]
  simp only [List.map_cons, List.map_append, List.map_map, List.map_nil]
  refine congrArg₂ List.cons rfl (congrArg₂ (· ++ ·) (congrArg₂ (· ++ ·) ?_ ?_) rfl)
  · exact List.map_congr_left fun p _ => hstyle _
  · exact List.map_congr_left fun m _ => hmodified m

end

/-- If two passes and one pass both make the object code of a sectioned program whose commands refer
back only, the records say the same one by one and in all their fields, and the symbols are the
same. -/
theorem sectioned_onePass_agrees (table : OpTable) (ht : table.Sized .sectioned)
    (hav : table.Avoids TwoPass.SectionedCode.reserved) (i : Int) (program : List Line)
    (hback : ∀ sec ∈ controlSections program, RefersBack table sec) (rows : List Row)
    (symbols : Symbols) (records : List ObjectRecord) (written : List Modification)
    (htwo : assembleTwice ⟨.sectioned, .twoPass⟩ table (.ofIndex i) program =
      .ok (.listed rows symbols, some (.ok (.made records written))))
    (v : OnePass.Snapshot) (records' : List ObjectRecord)
    (hfault : (traceProgram .sectioned table (.ofIndex i) program).fault = none)
    (hlast : (traceProgram .sectioned table (.ofIndex i) program).snapshots.getLast? = some v)
    (hrecords : v.records = some records') :
    records.map (·.fields (Dialect.codeStyle ⟨.sectioned, .twoPass⟩)) =
        records'.map (·.fields (Layout.traceStyle .sectioned)) ∧
      symbols.Same v.symbols := by
  obtain ⟨hlist, hmake⟩ := assembleTwice_eq_made_iff.1 htwo
  obtain ⟨-, sections, rfl, haccepted, -⟩ := TwoPass.Sectioned.of_list hlist
  obtain ⟨rfl, -, -⟩ := TwoPass.SectionedCode.of_make ht hav haccepted hmake
  obtain ⟨rfl, hfits, sections', hsymbols, htables⟩ :=
    OnePass.Sectioned.of_trace ht hfault hlast hrecords
  have hnames :
      tablesOf .onePass table (controlSections program) = tablesOf .twoPass table
        (controlSections program) :=
    List.map_congr_left fun sec hsec => by rw [ControlSection.names_onePass (hback sec hsec)]
  constructor
  · rw [List.map_flatMap, List.map_flatMap]
    exact List.flatMap_congr fun sec hsec =>
      recordsOf_agree ht (haccepted.listed sec hsec) (hfits sec hsec) (hback sec hsec)
  · rw [hsymbols]
    intro sec x
    have hsame :
        (sections.get? sec).map (fun ns => ns.get?) = (sections'.get? sec).map
          (fun ns => ns.get?) := by
      rw [haccepted.tables, htables, hnames]
    have hget : ∀ o : Option (SectionNames (Option Int)),
        o.bind (·.get? x) = (o.map fun ns => ns.get?).bind fun N => N x := by
      intro o
      cases o <;> rfl
    rw [hget, hget, hsame]

/-- Two sections that refer back only, to labels and to an imported name. -/
def backwardSections : List Line :=
  [⟨some "MAIN", ⟨"START", []⟩⟩, ⟨none, ⟨"EXTDEF", [.direct "GO"]⟩⟩,
    ⟨none, ⟨"EXTREF", [.direct "OUT"]⟩⟩, ⟨some "A", ⟨"JMP", [.direct "OUT"]⟩⟩,
    ⟨some "GO", ⟨"JMP", [.direct "GO"]⟩⟩, ⟨none, ⟨"LDR", [.relative "A"]⟩⟩,
    ⟨some "PART", ⟨"CSECT", [.number 4]⟩⟩, ⟨some "A", ⟨"BYTE", [.chars "xy"]⟩⟩,
    ⟨none, ⟨"JMP", [.direct "A"]⟩⟩, ⟨some "E", ⟨"END", []⟩⟩]

theorem backwardSections_agree :
    jumpAndLoad.Sized .sectioned ∧ jumpAndLoad.Avoids TwoPass.SectionedCode.reserved ∧
      (∀ sec ∈ controlSections backwardSections, RefersBack jumpAndLoad sec) ∧
      ∃ rows symbols records written v records',
        assembleTwice ⟨.sectioned, .twoPass⟩ jumpAndLoad (.ofIndex 2) backwardSections =
          .ok (.listed rows symbols, some (.ok (.made records written))) ∧
        (traceProgram .sectioned jumpAndLoad (.ofIndex 2) backwardSections).fault = none ∧
        (traceProgram .sectioned jumpAndLoad (.ofIndex 2) backwardSections).snapshots.getLast? =
          some v ∧
        v.records = some records' ∧
        records.map (·.fields (Dialect.codeStyle ⟨.sectioned, .twoPass⟩)) =
          records'.map (·.fields (Layout.traceStyle .sectioned)) ∧
        symbols.Same v.symbols := by
  have ht : jumpAndLoad.Sized .sectioned := OpTable.sized_of_forall (by decide +kernel)
  have hav : jumpAndLoad.Avoids TwoPass.SectionedCode.reserved := by
    unfold OpTable.Avoids; decide +kernel
  have hback : ∀ sec ∈ controlSections backwardSections, RefersBack jumpAndLoad sec := by
    decide +kernel
  exact ⟨ht, hav, hback, _, _, _, _, _, _, rfl, rfl, rfl, rfl,
    sectioned_onePass_agrees jumpAndLoad ht hav 2 backwardSections hback _ _ _ _ rfl _ _ rfl
      rfl rfl⟩

end Assembler
