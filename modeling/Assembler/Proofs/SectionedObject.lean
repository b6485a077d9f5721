import Mathlib.Data.List.TakeWhile
import Assembler.Assembly
import Assembler.Proofs.RowContexts
import Assembler.Proofs.SectionedListing

/-! # The object code of sectioned programs

The second of two passes takes the rows of each section back out of the listing and makes their
records.  A row is read from all names of its section, whether they stand before it or behind it
(`of_make`). -/

namespace Assembler
set_option autoImplicit false

/-! ## Readings of the names of a section -/

/-- The reading of the names of a section in two passes, before the command at `next`: as a direct
name, a name without an address counts as zero. -/
def Reading.ofNames (N : NameTable) (next : Int) : Reading :=
  ⟨fun x => (N x).map fun e => e.address.getD 0,
    fun x => (N x).bind fun e => e.address.map (displacement · next)⟩

/-- The scope of a section in two passes knows the names of the section. -/
theorem Scope.section_knows {sections : Sections (Option Int)} {k : Option String}
    {ns : SectionNames (Option Int)} (h : sections.get? k = some ns) (next : Int) :
    (Scope.ofDialect ⟨.sectioned, .twoPass⟩ (.ofSections sections) k next).Knows
      (.ofNames ns.get? next) fun _ => True := by
  have hentry := Directory.entry_ofSections h
  constructor
  · intro x v hx
    obtain ⟨e, he, rfl⟩ := Option.map_eq_some_iff.1 hx
    simp only [ofDialect, sectionDirect, hentry, he]
    cases e.address <;> simp [Value.ofAddress?]
  · intro x v hx
    obtain ⟨e, he, hv⟩ := Option.bind_eq_some_iff.1 hx
    obtain ⟨b, hb, rfl⟩ := Option.map_eq_some_iff.1 hv
    simp [ofDialect, sectionRelative, hentry, he, hb, Value.ofAddress?]
  · intro x hx
    have hnone : ns.get? x = none := Option.map_eq_none_iff.1 hx
    simp [ofDialect, sectionDirect, hentry, hnone]
  · intro x hx
    simp only [ofDialect, sectionRelative, hentry, and_true]
    cases he : ns.get? x with
    | none => exact ⟨_, rfl⟩
    | some e =>
      have hnone : e.address = none := by simpa [Reading.ofNames, he] using hx
      exact ⟨_, by simp [hnone, Value.ofAddress?]; rfl⟩

namespace TwoPass.SectionedCode

/-- The dialect of sectioned programs in two passes. -/
abbrev dialect : Dialect := ⟨.sectioned, .twoPass⟩

/-- The directives that no operation may have the name of. -/
def reserved : List String := sectionedDirectives ++ [Sectioned.sectionEnd]

variable {table : OpTable} {use : NameUse} {dir : Directory} {sec : Section} {e e' : Emission}
  {p : Row × Int}

/-! ## The record of a row -/

/-- What has been made after the record of a row with given digits. -/
def Emission.push (table : OpTable) (e : Emission) (p : Row × Int) (field : String) : Emission :=
  { e with
    records := e.records ++ [linkedRecord table p field]
    open_ := e.open_ ++ modifiedNames table p }

theorem Emission.eq_of_addSized {size : Int} {r : ObjectRecord} (h : e.addSized size r = .ok e') :
    e' = e.add r := by
  unfold addSized at h
  split at h
  · exact (Except.ok.inj h).symm
  · cases h

/-- A row that is let through is taken as a directive, as an export and as a command, one after
another. -/
theorem addRow_eq_ok_iff (hf : e'.found = []) : addRow dialect dir table sec e p = .ok e' ↔
    ∃ e₁ e₂, addDirective dialect dir sec p.1 p.2 e = .ok e₁ ∧
      addExport dialect (Scope.ofDialect dialect dir sec.label (p.1.address + p.2)) p.1 e₁ =
        .ok e₂ ∧
      addCommand dialect (Scope.ofDialect dialect dir sec.label (p.1.address + p.2)) table p.1 p.2
        e₂ = .ok e' := by
  unfold addRow
  cases hd : addDirective dialect dir sec p.1 p.2 e with
  | error x => simp
  | ok e₁ =>
    simp only [Except.ok.injEq, exists_and_left, exists_eq_left']
    cases hx :
      addExport dialect (Scope.ofDialect dialect dir sec.label (p.1.address + p.2)) p.1 e₁ with
    | error y =>
      simp only [bind, Except.bind, reduceCtorEq, false_and, exists_false, iff_false,
        Except.ok.injEq]
      intro h
      simp [← h, Emission.report] at hf
    | ok e₂ =>
      simp only [bind, Except.bind, Except.ok.injEq, exists_eq_left']
      cases hc :
        addCommand dialect (Scope.ofDialect dialect dir sec.label (p.1.address + p.2)) table p.1
          p.2 e₂ with
      | error y =>
        simp only [reduceCtorEq, iff_false, Except.ok.injEq]
        intro h
        simp [← h, Emission.report] at hf
      | ok e₃ => simp

/-- A row that is neither an export nor a command gives what its directive gives. -/
theorem addRow_of_directive (hget : table.get? p.1.line.mnemonic = none)
    (hexp : p.1.line.mnemonic ≠ "EXTDEF") :
    addRow dialect dir table sec e p = addDirective dialect dir sec p.1 p.2 e := by
  unfold addRow
  cases addDirective dialect dir sec p.1 p.2 e with
  | error x => rfl
  | ok e₁ => simp [addExport, hexp, addCommand, hget, bind, Except.bind]

theorem storageRecord_eq {kind : Storage} {a : Int} {ops : List Operand} {al : Allotment}
    (h : kind.allot a ops = .ok al) (b size : Int) : storageRecord b size (kind.digits? ops) =
      match kind with
      | .words => .data b size (Field.shown (wordDigits? ops))
      | .bytes => .data b size (Field.shown (byteDigits? ops))
      | _ => .space b size := by
  unfold Storage.allot at h
  split at h <;> cases h <;>
    simp [Storage.digits?, storageRecord, wordDigits?, byteDigits?, Field.shown]

theorem addDirective_of_storage {kind : Storage} (hm : p.1.line.mnemonic = kind.mnemonic)
    {al : Allotment} (hal : kind.allot p.1.address p.1.line.operands = .ok al) :
    addDirective dialect dir sec p.1 p.2 e =
      e.addSized p.2 (storageRecord p.1.address p.2 (kind.digits? p.1.line.operands)) := by
  rw [storageRecord_eq hal]
  cases kind <;> simp [addDirective, hm, Storage.mnemonic, Sectioned.sectionEnd]

theorem addDirective_of_other (hm : p.1.line.mnemonic = "EXTDEF" ∨ p.1.line.mnemonic ∉ reserved) :
    addDirective dialect dir sec p.1 p.2 e = .ok e := by
  rcases hm with hm | hm
  · simp [addDirective, hm, Sectioned.sectionEnd]
  · simp only [reserved, sectionedDirectives, flatDirectives, List.mem_append, List.mem_cons,
      List.not_mem_nil, or_false, not_or] at hm
    simp [addDirective, hm]

theorem addRow_of_other (hm : p.1.line.mnemonic = "EXTDEF" ∨ p.1.line.mnemonic ∉ reserved)
    (h : addRow dialect dir table sec e p = .ok e') (hf : e'.found = []) :
    ∃ e₁, addExport dialect (Scope.ofDialect dialect dir sec.label (p.1.address + p.2)) p.1 e =
      .ok e₁ ∧
      addCommand dialect (Scope.ofDialect dialect dir sec.label (p.1.address + p.2)) table p.1 p.2
        e₁ = .ok e' := by
  obtain ⟨e₁, e₂, hdirective, hrest⟩ := (addRow_eq_ok_iff hf).1 h
  rw [addDirective_of_other hm] at hdirective
  obtain rfl := Except.ok.inj hdirective
  exact ⟨e₂, hrest⟩

/-- A row without a command gives nothing; a command gives its record and notes its direct names. -/
theorem addCommand_cases {scope : Scope} {r : Row} {size : Int}
    (h : addCommand dialect scope table r size e = .ok e') :
    table.get? r.line.mnemonic = none ∧ e' = e ∨
      ∃ op field, table.get? r.line.mnemonic = some op ∧
      Field.ofOperands dialect scope op.size r.line.operands = .ok field ∧
        e' = { e with
          records :=
            e.records ++
              [.code r.address size (codeByte op.opcode r.line.operands) (Field.shown field)]
          open_ := e.open_ ++ if Addressing.ofOperands r.line.operands = .direct then
            r.line.operands.map fun op => (r.address, op.text) else [] } := by
  unfold addCommand at h
  simp only at h
  split at h
  · next hget => exact .inl ⟨hget, (Except.ok.inj h).symm⟩
  · next op hget =>
    split at h
    · cases h
    · next field hfield =>
      split at h
      · cases h
      · next e₁ he₁ =>
        obtain rfl := Emission.eq_of_addSized he₁
        refine .inr ⟨op, field, hget, hfield, ?_⟩
        unfold Emission.noteOpen at h
        simp only at h
        split_ifs at h with hdirect htext
        · have hall : r.line.operands.takeWhile Operand.hasText = r.line.operands :=
            List.takeWhile_eq_self_iff.2 (by simpa using htext)
          rw [if_pos hdirect, ← Except.ok.inj h, hall]
          rfl
        · rw [if_neg hdirect, ← Except.ok.inj h, List.append_nil]
          rfl

/-- The record of a command that is let through has the digits of its operands. -/
theorem addCommand_clean {scope : Scope} {N : NameTable}
    (hk : scope.Knows (.ofNames N (p.1.address + p.2)) fun _ => True) {op : Operation}
    (hop : Statement.ofMnemonic .sectioned table p.1.line.mnemonic = .command op)
    (hadm : Admitted op.size p.1.line.operands)
    (h : addCommand dialect scope table p.1 p.2 e = .ok e') :
    ∃ field, linkedField table (.ofNames N (p.1.address + p.2)) p = some field ∧
      e' = e.push table p field := by
  have hget := (Statement.stands_of_eq hop).1
  obtain ⟨hnone, -⟩ | ⟨op', field, hop', hfield, rfl⟩ := addCommand_cases h
  · simp [hget] at hnone
  · obtain rfl : op' = op := Option.some.inj (hop'.symm.trans hget)
    cases hd : operandDigits? (.ofNames N (p.1.address + p.2)) op'.size p.1.line.operands with
    | none =>
      obtain ⟨x, hx⟩ := Field.ofOperands_error dialect hk hd
      simp [hx] at hfield
    | some ds =>
      rw [Field.ofOperands_admitted dialect hk hadm hd] at hfield
      obtain rfl := Except.ok.inj hfield
      refine ⟨ds, by simp only [linkedField, hop, hd], ?_⟩
      simp only [Emission.push, linkedRecord, recordOf, modifiedNames, hop, Field.shown,
        Option.getD_some]

theorem addRow_clean (ht : table.Sized .sectioned) (hav : table.Avoids sectionedDirectives)
    (hp : p.1.line.LinkFits table use p.1.address) (hend : p.1.line.mnemonic ≠ Sectioned.sectionEnd)
    {N : NameTable}
    (hk : (Scope.ofDialect dialect dir sec.label (p.1.address + p.2)).Knows
      (.ofNames N (p.1.address + p.2)) fun _ =>
        True) (h : addRow dialect dir table sec e p = .ok e') (hf : e'.found = []) :
    e.found = [] ∧ ∃ field, linkedField table (.ofNames N (p.1.address + p.2)) p = some field ∧
      e' = e.push table p field := by
  have hadmitted : ∀ op, Statement.ofMnemonic .sectioned table p.1.line.mnemonic = .command op →
      Admitted op.size p.1.line.operands := fun op hop => hp.admitted ht hop
  rcases hp with hfit | ⟨hm | hm, -, x, hx⟩
  · rcases hfit.cases with ⟨kind, al, hkind, hal, -⟩ | ⟨op, hop, -⟩
    · have hm : p.1.line.mnemonic = kind.mnemonic := Statement.stands_of_eq hkind
      have hget : table.get? p.1.line.mnemonic = none := hav _ (by rw [hm]; cases kind <;> decide)
      rw [addRow_of_directive hget (by rw [hm]; cases kind <;> decide),
        addDirective_of_storage hm hal] at h
      obtain rfl := Emission.eq_of_addSized h
      refine ⟨hf, "", by simp only [linkedField, hkind], ?_⟩
      simp [Emission.push, Emission.add, linkedRecord, recordOf, modifiedNames, hkind]
    · have hget := (Statement.stands_of_eq hop).1
      have hm : p.1.line.mnemonic ∉ sectionedDirectives := fun hm => by simp [hav _ hm] at hget
      have hexp : p.1.line.mnemonic ≠ "EXTDEF" := fun hx => hm (by rw [hx]; decide)
      obtain ⟨e₁, hexport, hcommand⟩ := addRow_of_other (.inr (by simp [reserved, hm, hend])) h hf
      rw [addExport, if_neg hexp] at hexport
      obtain rfl := Except.ok.inj hexport
      obtain ⟨field, hfield, rfl⟩ := addCommand_clean hk hop (hadmitted op hop) hcommand
      exact ⟨hf, field, hfield, rfl⟩
  · have hst := (Statement.ofMnemonic_eq_exportName_iff table _).2 hm
    have hget : table.get? p.1.line.mnemonic = none := hav _ (by rw [hm]; decide)
    obtain ⟨e₁, hexport, hcommand⟩ := addRow_of_other (.inl hm) h hf
    simp only [addCommand, hget, Except.ok.injEq] at hcommand
    subst hcommand
    have hadm : Admitted 4 p.1.line.operands := by rw [hx]; exact .address x
    rw [addExport, if_pos hm, definitionRecord] at hexport
    cases hd : operandDigits? (.ofNames N (p.1.address + p.2)) 4 p.1.line.operands with
    | none =>
      obtain ⟨y, hy⟩ := Field.ofOperands_error dialect hk hd
      rw [hy] at hexport
      cases hexport
    | some ds =>
      rw [Field.ofOperands_admitted dialect hk hadm hd, hx] at hexport
      simp only [Operand.written, Operand.hasText, writtenIf, if_true, map_ok, Except.ok.injEq]
        at hexport
      obtain rfl := hexport
      refine ⟨hf, ds, by simp only [linkedField, hst, hd], ?_⟩
      simp [Emission.push, Emission.add, linkedRecord, modifiedNames, hst, hx, onlyName?,
        Field.shown, Operand.text]
  · have hst := (Statement.ofMnemonic_eq_importName_iff table _).2 hm
    have hget : table.get? p.1.line.mnemonic = none := hav _ (by rw [hm]; decide)
    rw [addRow_of_directive hget (by rw [hm]; decide)] at h
    simp only [addDirective, hm, hx, Sectioned.sectionEnd, String.reduceEq, or_self, if_false,
      if_true, Operand.written, Operand.hasText, writtenIf, map_ok, Except.ok.injEq] at h
    subst h
    refine ⟨hf, "", by simp only [linkedField, hst], ?_⟩
    simp [Emission.push, Emission.add, linkedRecord, modifiedNames, hst, hx, onlyName?,
      Operand.text]

/-! ## What is found wrong stays -/

theorem found_writeModifications {label : Option String} {ms : List (Int × String)}
    (h : writeModifications dir label e ms = .ok e') : e'.found = e.found := by
  induction ms generalizing e with
  | nil =>
    cases h
    rfl
  | cons m ms ih =>
    obtain ⟨a, x⟩ := m
    rw [writeModifications] at h
    split at h
    · cases h
    · exact (ih h).trans rfl

theorem found_addExport {scope : Scope} {r : Row} (h : addExport dialect scope r e = .ok e') :
    e'.found = e.found := by
  unfold addExport at h
  split_ifs at h
  · split at h <;> cases h
    rfl
  · cases h
    rfl

/-- A command adds at most its own record. -/
theorem addCommand_added {scope : Scope} {r : Row} {size : Int}
    (h : addCommand dialect scope table r size e = .ok e') :
    e'.found = e.found ∧ e'.written = e.written ∧ ∃ added, e'.records = e.records ++ added ∧
      (table.get? r.line.mnemonic = none → added = []) ∧
      ∀ o ∈ added, ∃ byte field, o = .code r.address size byte field := by
  obtain ⟨-, rfl⟩ | ⟨op, field, hop, -, rfl⟩ := addCommand_cases h
  · exact ⟨rfl, rfl, [], by simp⟩
  · exact ⟨rfl, rfl, _, rfl, by simp [hop], by simp⟩

/-- The directive that closes a section is let through if the addresses of its modifications have
decimal forms and the names in them are known. -/
theorem closeSection_eq_ok_iff {r : Row} : closeSection dialect dir sec r e = .ok e' ↔
    (∀ m ∈ e.open_, Text.hasDecimal m.1 = true) ∧
      ∃ e₁, writeModifications dir sec.label e e.open_ = .ok e₁ ∧
      addEntry dialect sec r e₁ = e' := by
  unfold closeSection
  split_ifs with htold
  · rw [map_eq_ok_iff, and_iff_right (List.all_eq_true.1 htold)]
  · simp only [false_iff, not_and]
    intro hall
    exact absurd (List.all_eq_true.2 hall) htold

theorem found_addDirective {r : Row} {size : Int}
    (h : addDirective dialect dir sec r size e = .ok e') (hf : e'.found = []) :
    e.found = [] := by
  have hsized : ∀ {o}, e.addSized size o = .ok e' → e.found = [] :=
    fun ho => by rwa [Emission.eq_of_addSized ho] at hf
  unfold addDirective at h
  simp only at h
  split_ifs at h
  · obtain ⟨-, e₁, he₁, rfl⟩ := closeSection_eq_ok_iff.1 h
    rw [← found_writeModifications he₁]
    simp only [addEntry, Emission.add, Emission.report] at hf
    split_ifs at hf
    · exact hf
    · exact (List.append_eq_nil_iff.1 hf).1
  · cases h
    exact hf
  · exact hsized h
  · split at h
    · cases h
    · obtain ⟨name, -, rfl⟩ := (map_eq_ok_iff _ _ _).1 h
      exact hf
  · exact hsized h
  · exact hsized h
  · cases h
    exact hf

theorem found_addRow (h : addRow dialect dir table sec e p = .ok e') (hf : e'.found = []) :
    e.found = [] := by
  obtain ⟨e₁, e₂, hdirective, hexport, hcommand⟩ := (addRow_eq_ok_iff hf).1 h
  apply found_addDirective hdirective
  rw [← found_addExport hexport, ← (addCommand_added hcommand).1, hf]

theorem found_addRows {ps : List (Row × Int)} (h : addRows dialect dir table sec e ps = .ok e')
    (hf : e'.found = []) :
    e.found = [] := by
  induction ps generalizing e with
  | nil =>
    cases h
    exact hf
  | cons p ps ih =>
    rw [addRows] at h
    split at h
    · cases h
    · next e₁ he₁ => exact found_addRow he₁ (ih h)

theorem found_addSections {secs : List Section} (h : addSections dialect dir table e secs = .ok e')
    (hf : e'.found = []) :
    e.found = [] := by
  induction secs generalizing e with
  | nil =>
    cases h
    exact hf
  | cons sec secs ih =>
    rw [addSections] at h
    split at h
    · cases h
    · next e₁ he₁ =>
      have hopened : ({ e with open_ := [] } : Emission).found = [] := found_addRows he₁ (ih h)
      exact hopened

/-! ## What is written stays -/

theorem written_writeModifications {label : Option String} {ms : List (Int × String)}
    (h : writeModifications dir label e ms = .ok e') :
    e'.written = e.written ++ ms.map fun m => ⟨m.1, m.2, label⟩ := by
  induction ms generalizing e with
  | nil =>
    cases h
    simp
  | cons m ms ih =>
    obtain ⟨a, x⟩ := m
    rw [writeModifications] at h
    split at h
    · cases h
    · rw [ih h]
      simp

theorem written_addEntry (r : Row) (e : Emission) :
    (addEntry dialect sec r e).written = e.written := by
  unfold addEntry
  simp only [Emission.add, Emission.report]
  split <;> rfl

theorem written_addDirective {r : Row} {size : Int}
    (h : addDirective dialect dir sec r size e = .ok e') :
    e.written <+: e'.written := by
  unfold addDirective at h
  simp only at h
  split_ifs at h
  · obtain ⟨-, e₁, he₁, rfl⟩ := closeSection_eq_ok_iff.1 h
    rw [written_addEntry, written_writeModifications he₁]
    exact List.prefix_append _ _
  · cases h
    exact List.prefix_rfl
  · rw [Emission.eq_of_addSized h]
    exact List.prefix_rfl
  · split at h
    · cases h
    · obtain ⟨name, -, rfl⟩ := (map_eq_ok_iff _ _ _).1 h
      exact List.prefix_rfl
  · rw [Emission.eq_of_addSized h]
    exact List.prefix_rfl
  · rw [Emission.eq_of_addSized h]
    exact List.prefix_rfl
  · cases h
    exact List.prefix_rfl

theorem written_addExport {scope : Scope} {r : Row} (h : addExport dialect scope r e = .ok e') :
    e'.written = e.written := by
  unfold addExport at h
  split_ifs at h
  · split at h <;> cases h
    rfl
  · cases h
    rfl

theorem written_addRow (h : addRow dialect dir table sec e p = .ok e') (hf : e'.found = []) :
    e.written <+: e'.written := by
  obtain ⟨e₁, e₂, hdirective, hexport, hcommand⟩ := (addRow_eq_ok_iff hf).1 h
  rw [(addCommand_added hcommand).2.1, written_addExport hexport]
  exact written_addDirective hdirective

theorem written_addRows {ps : List (Row × Int)} (h : addRows dialect dir table sec e ps = .ok e')
    (hf : e'.found = []) :
    e.written <+: e'.written := by
  induction ps generalizing e with
  | nil =>
    cases h
    exact List.prefix_rfl
  | cons p ps ih =>
    rw [addRows] at h
    split at h
    · cases h
    · next e₁ he₁ => exact (written_addRow he₁ (found_addRows h hf)).trans (ih h)

theorem written_addSections {secs : List Section}
    (h : addSections dialect dir table e secs = .ok e') (hf : e'.found = []) :
    e.written <+: e'.written := by
  induction secs generalizing e with
  | nil =>
    cases h
    exact List.prefix_rfl
  | cons sec secs ih =>
    rw [addSections] at h
    split at h
    · cases h
    · next e₁ he₁ =>
      have hopened : ({ e with open_ := [] } : Emission).written <+: e₁.written :=
        written_addRows he₁ (found_addSections h hf)
      exact hopened.trans (ih h)

/-! ## The records of a section -/

theorem addRows_clean (ht : table.Sized .sectioned) (hav : table.Avoids sectionedDirectives)
    {ps : List (Row × Int)} (hps : ∀ p ∈ ps, p.1.line.LinkFits table use p.1.address)
    (hend : ∀ p ∈ ps, p.1.line.mnemonic ≠ Sectioned.sectionEnd) {N : NameTable}
    (hk : ∀ next, (Scope.ofDialect dialect dir sec.label next).Knows (.ofNames N next) fun _ =>
      True) {rest : List (Row × Int)}
    (h : addRows dialect dir table sec e (ps ++ rest) = .ok e') (hf : e'.found = []) :
    (∀ p ∈ ps, (linkedField table (.ofNames N (p.1.address + p.2)) p).isSome = true) ∧
      addRows dialect dir table sec { e with
        records := e.records ++ ps.map fun p =>
          linkedRecord table p ((linkedField table (.ofNames N (p.1.address + p.2)) p).getD "")
        open_ := e.open_ ++ ps.flatMap (modifiedNames table) } rest = .ok e' := by
  induction ps generalizing e with
  | nil => simpa using h
  | cons p ps ih =>
    rw [List.cons_append, addRows] at h
    cases hr : addRow dialect dir table sec e p with
    | error x => simp [hr] at h
    | ok e₁ =>
      simp only [hr] at h
      obtain ⟨-, field, hfield, rfl⟩ :=
        addRow_clean ht hav (hps p List.mem_cons_self) (hend p List.mem_cons_self) (hk _) hr
          (found_addRows h hf)
      obtain ⟨hall, hrest⟩ := ih (fun q hq => hps q (List.mem_cons_of_mem _ hq))
        (fun q hq => hend q (List.mem_cons_of_mem _ hq)) h
      refine ⟨List.forall_mem_cons.2 ⟨by rw [hfield]; rfl, hall⟩, ?_⟩
      simpa [Emission.push, hfield] using hrest

def modificationRecord (N : NameTable) (m : Int × String) : ObjectRecord :=
  .modification m.1 (if N.Imported m.2 then some m.2 else none)

theorem writeModifications_eq {sections : Sections (Option Int)} {k : Option String}
    {ns : SectionNames (Option Int)} (hns : sections.get? k = some ns) {ms : List (Int × String)}
    (h : writeModifications (.ofSections sections) k e ms = .ok e') : e' = { e with
      records := e.records ++ ms.map (modificationRecord ns.get?)
      written := e.written ++ ms.map fun m => ⟨m.1, m.2, k⟩ } := by
  induction ms generalizing e with
  | nil =>
    cases h
    simp
  | cons m ms ih =>
    obtain ⟨a, x⟩ := m
    rw [writeModifications, Directory.entry_ofSections hns] at h
    cases hx : ns.get? x with
    | none => simp [hx] at h
    | some entry =>
      simp only [hx] at h
      rw [ih h]
      simp [modificationRecord, NameTable.Imported, NameTable.linkage?, hx]

/-- The rows of a section in the listing with the distances to the next rows. -/
def sizedBlock (table : OpTable) (cs : ControlSection) : List (Row × Int) :=
  (⟨0, cs.opener, cs.opener.label⟩, 0) :: (cs.rows table ++
    [(⟨cs.length table, Sectioned.closingLine cs.closer, cs.opener.label⟩, 0 - cs.length table)])

/-- The digits of a row of a section, read from all names of the section. -/
def fieldIn (table : OpTable) (cs : ControlSection) (p : Row × Int) : Option String :=
  linkedField table (.ofNames (cs.names .twoPass table) (p.1.address + p.2)) p

def recordsOf (table : OpTable) (cs : ControlSection) : List ObjectRecord :=
  .header cs.opener.label 0 (some (cs.length table)) ::
    ((cs.rows table).map (fun p => linkedRecord table p ((fieldIn table cs p).getD "")) ++
      ((cs.rows table).flatMap (modifiedNames table)).map
        (modificationRecord (cs.names .twoPass table)) ++
      [.finish cs.entry])

theorem closingLine_mnemonic {l : Line} (h : l.mnemonic = "CSECT" ∨ l.mnemonic = "END") :
    (Sectioned.closingLine l).mnemonic = Sectioned.sectionEnd ∨
      (Sectioned.closingLine l).mnemonic = "END" := by
  unfold Sectioned.closingLine
  rcases h with h | h
  · rw [if_pos h]
    exact .inl rfl
  · rw [if_neg (by simp [h])]
    exact .inr h

theorem closingLine_operands (l : Line) : (Sectioned.closingLine l).operands = l.operands := by
  unfold Sectioned.closingLine
  split <;> rfl

theorem addRow_opener (hav : table.Avoids sectionedDirectives)
    (hm : p.1.line.mnemonic = "START" ∨ p.1.line.mnemonic = "CSECT") :
    addRow dialect dir table sec e p =
      .ok (e.add (.header p.1.line.label p.1.address (some sec.length))) := by
  have hget : table.get? p.1.line.mnemonic = none :=
    hav _ (by rcases hm with hm | hm <;> rw [hm] <;> decide)
  rw [addRow_of_directive hget (by rcases hm with hm | hm <;> rw [hm] <;> decide)]
  rcases hm with hm | hm <;> simp [addDirective, hm, Sectioned.sectionEnd]

def modificationsOf (table : OpTable) (cs : ControlSection) : List Modification :=
  ((cs.rows table).flatMap (modifiedNames table)).map fun m => ⟨m.1, m.2, cs.opener.label⟩

/-- A section that the second pass has let through: its rows have digits, and it is entered at one
of its rows or where it ends. -/
structure Made (table : OpTable) (cs : ControlSection) : Prop where
  fields : ∀ p ∈ cs.rows table, (fieldIn table cs p).isSome = true
  entry : ∃ p ∈ sizedBlock table cs, p.1.address = cs.entry

theorem closeSection_clean {sections : Sections (Option Int)} {ns : SectionNames (Option Int)}
    (hns : sections.get? sec.label = some ns) {r : Row}
    (h : closeSection dialect (.ofSections sections) sec r e = .ok e') (hf : e'.found = []) :
    (∃ q ∈ sec.rows, q.1.address = (onlyNumber? r.line.operands).getD sec.first) ∧
      e'.records = e.records ++ (e.open_.map (modificationRecord ns.get?) ++
        [.finish ((onlyNumber? r.line.operands).getD sec.first)]) ∧
      e'.written = e.written ++ e.open_.map fun m => ⟨m.1, m.2, sec.label⟩ := by
  obtain ⟨-, e₁, he₁, rfl⟩ := closeSection_eq_ok_iff.1 h
  obtain rfl := writeModifications_eq hns he₁
  simp only [addEntry, Emission.add, Emission.report] at hf ⊢
  split_ifs at hf ⊢ with hentry
  · simp only [List.any_eq_true, beq_iff_eq] at hentry
    exact ⟨hentry, by simp, rfl⟩
  · simp at hf

theorem addRow_closer {sections : Sections (Option Int)} {ns : SectionNames (Option Int)}
    (hns : sections.get? sec.label = some ns)
    (hm : p.1.line.mnemonic = Sectioned.sectionEnd ∨ p.1.line.mnemonic = "END")
    (h : addRow dialect (.ofSections sections) table sec e p = .ok e') (hf : e'.found = []) :
    (∃ q ∈ sec.rows, q.1.address = (onlyNumber? p.1.line.operands).getD sec.first) ∧
      e'.written = e.written ++ e.open_.map (fun m => ⟨m.1, m.2, sec.label⟩) ∧
      ∃ added, e'.records = e.records ++ (e.open_.map (modificationRecord ns.get?) ++
          [.finish ((onlyNumber? p.1.line.operands).getD sec.first)]) ++ added ∧
        (table.get? p.1.line.mnemonic = none → added = []) ∧ ∀ o ∈ added, ∃ a size byte field,
        o = .code a size byte field := by
  obtain ⟨e₁, e₂, hdirective, hexport, hcommand⟩ := (addRow_eq_ok_iff hf).1 h
  obtain ⟨hfound, hwritten, added, hrecords, hnone, hcode⟩ := addCommand_added hcommand
  rw [addExport, if_neg (by cases hm with | inl hm | inr hm => rw [hm]; decide)] at hexport
  obtain rfl := Except.ok.inj hexport
  rw [addDirective, if_pos hm] at hdirective
  obtain ⟨hentry, hclosed, hlist⟩ := closeSection_clean hns hdirective (hfound ▸ hf)
  refine ⟨hentry, hwritten.trans hlist, added, hrecords.trans (by rw [hclosed]), hnone,
    fun o ho => ?_⟩
  obtain ⟨byte, field, rfl⟩ := hcode o ho
  exact ⟨_, _, byte, field, rfl⟩

/-- A section that is let through gives its records and modifications.  If an operation has the name
of the directive between sections, that directive adds a command. -/
theorem addSection_clean (ht : table.Sized .sectioned) (hav : table.Avoids sectionedDirectives)
    {cs : ControlSection} (hlisted : Sectioned.Listed table use cs)
    (hend : ∀ p ∈ cs.rows table, p.1.line.mnemonic ≠ Sectioned.sectionEnd)
    {sections : Sections (Option Int)} {ns : SectionNames (Option Int)}
    (hns : sections.get? cs.opener.label = some ns) (hget : ns.get? = cs.names .twoPass table)
    (hopen : e.open_ = [])
    (h : addRows dialect (.ofSections sections) table ⟨cs.opener.label, sizedBlock table cs⟩ e
      (sizedBlock table cs) = .ok e') (hf : e'.found = []) :
    Made table cs ∧ e'.written = e.written ++ modificationsOf table cs ∧
      ∃ added, e'.records = e.records ++ (recordsOf table cs ++ added) ∧
        (table.get? Sectioned.sectionEnd = none → added = []) ∧
        ∀ o ∈ added, ∃ a size byte field, o = .code a size byte field := by
  have hlength : Section.length ⟨cs.opener.label, sizedBlock table cs⟩ = cs.length table := by
    simp [Section.length, Section.first, Section.last, sizedBlock, List.getLast?_cons]
  generalize hsec : (⟨cs.opener.label, sizedBlock table cs⟩ : Section) = sec at h hlength
  have hlabel : sec.label = cs.opener.label := by rw [← hsec]
  have hrows : sec.rows = sizedBlock table cs := by rw [← hsec]
  have hfirst : sec.first = 0 := by rw [← hsec]; rfl
  rw [sizedBlock, addRows, addRow_opener hav hlisted.opener] at h
  simp only at h
  obtain ⟨hall, hrest⟩ := addRows_clean ht hav hlisted.fits hend
    (fun next => by rw [hlabel]; exact Scope.section_knows hns next) h hf
  rw [hget] at hall hrest
  rw [addRows] at hrest
  split at hrest
  · cases hrest
  · next e₁ he₁ =>
    obtain rfl := Except.ok.inj hrest
    have hm := closingLine_mnemonic hlisted.closer
    obtain ⟨hentry, hwritten, added, hrecords, hnone, hcode⟩ :=
      addRow_closer (by rw [hlabel]; exact hns) hm he₁ hf
    have hclosing :
        (onlyNumber? (Sectioned.closingLine cs.closer).operands).getD sec.first = cs.entry := by
      rw [closingLine_operands, hfirst, ControlSection.entry]
    rw [hclosing, hrows] at hentry
    rw [hclosing] at hrecords
    refine ⟨⟨hall, hentry⟩, ?_, added, ?_, fun hfree => hnone ?_, hcode⟩
    · rw [hwritten]
      simp [Emission.add, modificationsOf, hopen, hlabel]
    · rw [hrecords]
      simp [Emission.add, recordsOf, fieldIn, hlength, hopen, hget]
    · cases hm with
      | inl hm => rwa [hm]
      | inr hm => exact hav _ (by rw [hm]; decide)

/-! ## Sections out of a listing -/

theorem sizedRows_listedRows {cs : ControlSection} (h : Sectioned.Listed table use cs)
    {rest : List Row} (hrest : ∀ r ∈ rest.head?, r.address = 0) :
    sizedRows (Sectioned.listedRows table cs ++ rest) = sizedBlock table cs ++ sizedRows rest := by
  have hextent : cs.opener.extent .sectioned table = 0 := by
    unfold Line.extent
    rcases h.opener with h | h
    · rw [(Statement.ofMnemonic_eq_start_iff _ _ _).2 h]
    · rw [(Statement.ofMnemonic_eq_newSection_iff _ _).2 h]
  have hplaced : placed .sectioned table cs.opener.label 0 (cs.opener :: cs.body) =
      (⟨0, cs.opener, cs.opener.label⟩, 0) :: cs.rows table := by
    rw [placed, hextent, Int.add_zero]
    rfl
  have hsized := sizedRows_placed .sectioned table cs.opener.label 0 (cs.opener :: cs.body)
    ⟨cs.length table, Sectioned.closingLine cs.closer, cs.opener.label⟩ rest
    (by rw [extentOf, hextent, Int.zero_add, Int.zero_add]; rfl)
  have hclosing : ∀ r : Row, sizedRows (r :: rest) = (r, 0 - r.address) :: sizedRows rest := by
    intro r
    cases rest with
    | nil => rfl
    | cons next rest => rw [sizedRows, hrest next rfl]
  rw [hplaced, hclosing] at hsized
  simpa [Sectioned.listedRows, sizedBlock] using hsized

theorem sizedRows_flatMap {secs : List ControlSection}
    (h : ∀ cs ∈ secs, Sectioned.Listed table use cs) :
    sizedRows (secs.flatMap (Sectioned.listedRows table)) = secs.flatMap (sizedBlock table) := by
  induction secs with
  | nil => rfl
  | cons cs secs ih =>
    have hrest : ∀ r ∈ (secs.flatMap (Sectioned.listedRows table)).head?, r.address = 0 := by
      cases secs with
      | nil => simp
      | cons cs' secs => simp [Sectioned.listedRows]
    rw [List.flatMap_cons, List.flatMap_cons, sizedRows_listedRows (h cs List.mem_cons_self) hrest,
      ih fun k hk => h k (List.mem_cons_of_mem _ hk)]

theorem sectionsOf_append {k : Option String} {ps rest : List (Row × Int)} (hne : ps ≠ [])
    (hps : ∀ p ∈ ps, p.1.section_ = k) (hrest : ∀ sec ∈ (sectionsOf rest).head?, sec.label ≠ k) :
    sectionsOf (ps ++ rest) = ⟨k, ps⟩ :: sectionsOf rest := by
  induction ps with
  | nil => exact absurd rfl hne
  | cons p ps ih =>
    have hp : p.1.section_ = k := hps p List.mem_cons_self
    rw [List.cons_append, sectionsOf, hp]
    cases ps with
    | nil =>
      rw [List.nil_append]
      split
      · next sec secs heq =>
        rw [if_neg (hrest sec (by rw [heq]; rfl)), heq]
      · next heq => rw [heq]
    | cons q ps =>
      rw [ih (by simp) fun q hq => hps q (List.mem_cons_of_mem _ hq)]
      simp

theorem section_of_mem_sizedBlock {cs : ControlSection} {p : Row × Int}
    (h : p ∈ sizedBlock table cs) :
    p.1.section_ = cs.opener.label := by
  have hplaced : ∀ (a : Int) (ls : List Line), ∀ p ∈ placed .sectioned table cs.opener.label a ls,
      p.1.section_ = cs.opener.label := by
    intro a ls
    induction ls generalizing a with
    | nil => simp [placed]
    | cons l ls ih =>
      rw [placed, List.forall_mem_cons]
      exact ⟨rfl, ih _⟩
  rw [sizedBlock, List.mem_cons, List.mem_append, List.mem_singleton] at h
  rcases h with rfl | h | rfl
  · rfl
  · exact hplaced _ _ p h
  · rfl

/-- The sections of a listing are the control sections, if these have different labels. -/
theorem sectionsOf_flatMap {secs : List ControlSection}
    (h : (secs.map fun cs => cs.opener.label).Nodup) :
    sectionsOf (secs.flatMap (sizedBlock table)) = secs.map fun cs =>
      ⟨cs.opener.label, sizedBlock table cs⟩ := by
  induction secs with
  | nil => rfl
  | cons cs secs ih =>
    rw [List.map_cons, List.nodup_cons] at h
    have ih := ih h.2
    rw [List.flatMap_cons,
      sectionsOf_append (by simp [sizedBlock]) (fun p => section_of_mem_sizedBlock), ih,
      List.map_cons]
    rw [ih]
    intro sec hsec
    cases secs with
    | nil => simp at hsec
    | cons cs' secs =>
      obtain rfl : (⟨cs'.opener.label, sizedBlock table cs'⟩ : Section) = sec := by simpa using hsec
      exact fun heq => h.1 (by rw [List.map_cons, ← heq]; exact List.mem_cons_self)

/-! ## The records of a program -/

theorem ne_sectionEnd_of_linkFits (hav : table.Avoids reserved) {l : Line} {a : Int}
    (h : l.LinkFits table use a) :
    l.mnemonic ≠ Sectioned.sectionEnd := by
  intro hm
  have hget : table.get? l.mnemonic = none := hav _ (by rw [hm]; decide)
  obtain hfit | ⟨hlink | hlink, -⟩ := h
  · obtain ⟨kind, -, hkind, -⟩ | ⟨op, hop, -⟩ := hfit.cases
    · have hstorage : l.mnemonic = kind.mnemonic := Statement.stands_of_eq hkind
      rw [hm] at hstorage
      cases kind <;> simp [Storage.mnemonic, Sectioned.sectionEnd] at hstorage
    · simp [(Statement.stands_of_eq hop).1] at hget
  · simp [hm, Sectioned.sectionEnd] at hlink
  · simp [hm, Sectioned.sectionEnd] at hlink

theorem addSections_clean (ht : table.Sized .sectioned) (hav : table.Avoids reserved)
    {secs : List ControlSection} (hlisted : ∀ cs ∈ secs, Sectioned.Listed table use cs)
    {sections : Sections (Option Int)}
    (hnames : ∀ cs ∈ secs, ∃ ns, sections.get? cs.opener.label = some ns ∧
      ns.get? = cs.names .twoPass table)
        (h : addSections dialect (.ofSections sections) table e
          (secs.map fun cs => ⟨cs.opener.label, sizedBlock table cs⟩) =
            .ok e') (hf : e'.found = []) :
    (∀ cs ∈ secs, Made table cs) ∧ e'.records = e.records ++ secs.flatMap (recordsOf table) ∧
      e'.written = e.written ++ secs.flatMap (modificationsOf table) := by
  induction secs generalizing e with
  | nil =>
    cases h
    simp
  | cons cs secs ih =>
    rw [List.map_cons, addSections] at h
    split at h
    · cases h
    · next e₁ he₁ =>
      have hf₁ : e₁.found = [] := found_addSections h hf
      obtain ⟨hrest, hrecords, hwritten⟩ := ih (fun k hk => hlisted k (List.mem_cons_of_mem _ hk))
        (fun k hk => hnames k (List.mem_cons_of_mem _ hk)) h
      obtain ⟨ns, hns, hget⟩ := hnames cs List.mem_cons_self
      have hcs := hlisted cs List.mem_cons_self
      obtain ⟨hmade, hwritten₁, added, hrecords₁, hnone, -⟩ :=
        addSection_clean ht (fun m hm => hav m (List.mem_append_left _ hm)) hcs
          (fun p hp => ne_sectionEnd_of_linkFits hav (hcs.fits p hp)) hns hget rfl he₁ hf₁
      rw [hnone (hav _ (by decide)), List.append_nil] at hrecords₁
      refine ⟨List.forall_mem_cons.2 ⟨hmade, hrest⟩, ?_, ?_⟩
      · rw [hrecords, hrecords₁, List.flatMap_cons, List.append_assoc]
      · rw [hwritten, hwritten₁, List.flatMap_cons, List.append_assoc]

/-- A listing that the second pass accepts gives what its sections give, with nothing found
wrong. -/
theorem make_eq_made_iff {rows : List Row} {records : List ObjectRecord}
    {written : List Modification} :
    make dialect dir table rows = .ok (.made records written) ↔
      ∃ e, addSections dialect dir table ⟨[], [], [], []⟩ (sectionsOf (sizedRows rows)) = .ok e ∧
      e.found = [] ∧
        (∀ m ∈ e.written, Text.hasDecimal m.address = true) ∧ e.records = records ∧
        e.written = written := by
  unfold make
  cases addSections dialect dir table ⟨[], [], [], []⟩ (sectionsOf (sizedRows rows)) with
  | error x => simp
  | ok e =>
    simp only [Except.ok.injEq, exists_eq_left', ObjectProgram.unlessFound]
    split_ifs with htold hf
    · simp_all
    · simp_all
    · simp_all

/-- The records and modifications of a listing that the second pass accepts are those of the control
sections. -/
theorem of_make (ht : table.Sized .sectioned) (hav : table.Avoids reserved)
    {secs : List ControlSection} {rows : List Row} {sections : Sections (Option Int)}
    (hlist : Sectioned.Accepted table use secs rows sections) {records : List ObjectRecord}
    {written : List Modification}
    (h : make dialect (.ofSections sections) table rows = .ok (.made records written)) :
    records = secs.flatMap (recordsOf table) ∧ written = secs.flatMap (modificationsOf table) ∧
      ∀ cs ∈ secs, Made table cs := by
  obtain ⟨e, he, hf, -, rfl, rfl⟩ := make_eq_made_iff.1 h
  rw [hlist.rows_eq, sizedRows_flatMap hlist.listed, sectionsOf_flatMap hlist.distinct] at he
  obtain ⟨hall, hrecords, hwritten⟩ :=
    addSections_clean ht hav hlist.listed (fun _ => hlist.names) he hf
  exact ⟨by rw [hrecords]; rfl, by rw [hwritten]; rfl, hall⟩

end TwoPass.SectionedCode

/-- A jump to an address and a load over a distance. -/
def jumpAndLoad : OpTable := .ofTriples [("JMP", 1, 4), ("LDR", 2, 3)]

end Assembler
