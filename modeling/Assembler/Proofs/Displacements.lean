import Assembler.Proofs.Digits
import Assembler.Proofs.FlatObject
import Assembler.Proofs.SectionedObject

/-! # Displacements read back

A relative name is written as its distance from the next command: forward distances as they are,
backward ones modulo sixteen bits, in four places or more.  No pass looks at the distance.  Read as
a number of sixteen bits in two's complement, the digits lead to the label if and only if the
distance is such a number (`displacements_decode_iff`). -/

namespace Assembler
set_option autoImplicit false

/-! ## Sixteen bits -/

/-- Hexadecimal digits as a number of sixteen bits in two's complement. -/
def signedValue (digits : String) : Int := (BitVec.ofNat 16 (Text.valueOf 16 digits.toList)).toInt

theorem displacement_nonneg (target next : Int) : 0 ≤ displacement target next := by
  unfold displacement
  split <;> omega

theorem signedValue_displacement (target next : Int) :
    signedValue (Text.hex .upper 4 (displacement target next)) + next = target ↔
      -0x8000 ≤ target - next ∧ target - next < 0x8000 := by
  have hvalue := Text.valueOf_hex .upper 4 (displacement_nonneg target next)
  rw [signedValue, BitVec.toInt_eq_toNat_bmod, BitVec.toNat_ofNat, Int.bmod]
  push_cast
  rw [hvalue, displacement]
  split_ifs <;> omega

theorem length_displacement (target next : Int) :
    (Text.hex .upper 4 (displacement target next)).length = 4 ↔ target - next < 0x10000 := by
  rw [Text.length_hex_eq_iff (displacement_nonneg target next) (by decide)]
  unfold displacement
  split <;> omega

/-! ## The records of commands -/

def ObjectRecord.isCode : ObjectRecord → Bool
  | .code _ _ _ _ => true
  | _ => false

/-- A row for which the second pass makes the record of a command: its mnemonic is in the table.
Flat programs pass over their first and last row. -/
def isCoded (layout : Layout) (table : OpTable) (p : Row × Int) : Bool :=
  (table.get? p.1.line.mnemonic).isSome &&
    (layout == .sectioned || !(p.1.line.mnemonic == "START" || p.1.line.mnemonic == "END"))

/-- The record of a command that is made for a row. -/
def CodeRecord (d : Dialect) (dir : Directory) (table : OpTable) (p : Row × Int)
    (o : ObjectRecord) : Prop :=
  ∃ op field, table.get? p.1.line.mnemonic = some op ∧
    Field.ofOperands d (Scope.ofDialect d dir p.1.section_ (p.1.address + p.2)) op.size
      p.1.line.operands = .ok field ∧
    o = .code p.1.address p.2 (codeByte op.opcode p.1.line.operands) (Field.shown field)

variable {table : OpTable} {dir : Directory} {p : Row × Int}

namespace TwoPass.FlatCode

variable {layout : Layout} {moved : Bool} {e e' : Emission}

theorem codes_addStorage (h : addStorage p.1 p.2 e = .ok e') :
    e'.found = e.found ∧
      e'.records.filter ObjectRecord.isCode = e.records.filter ObjectRecord.isCode := by
  unfold addStorage at h
  split at h
  · cases h
    exact ⟨rfl, rfl⟩
  · next o ho =>
    have hcode : o.isCode = false := by
      unfold storageRecord? at ho
      simp only at ho
      split_ifs at ho <;> cases ho <;> rfl
    split at h
    · cases h
      exact ⟨rfl, by simp [hcode]⟩
    · cases h

theorem codes_addRow (hl : layout ≠ .sectioned)
    (h : addRow ⟨layout, .twoPass⟩ dir table moved e p = .ok e') (hf : e'.found = []) :
    e.found = [] ∧
      ∃ os, e'.records.filter ObjectRecord.isCode = e.records.filter ObjectRecord.isCode ++ os ∧
        List.Forall₂ (CodeRecord ⟨layout, .twoPass⟩ dir table) ([p].filter (isCoded layout table))
          os := by
  have hflat : (layout == .sectioned) = false := by simpa using hl
  unfold addRow at h
  simp only at h
  split at h
  · next hframe =>
    cases h
    have hcoded : isCoded layout table p = false := by
      obtain hm | hm := hframe <;> simp [isCoded, hflat, hm]
    exact ⟨hf, [], by simp, by simp [hcoded]⟩
  · next hframe =>
    split at h
    · cases h
    · next e₁ he₁ =>
      obtain ⟨hfound, hrecords⟩ := codes_addStorage he₁
      rw [← hfound, ← hrecords]
      split at h
      · next hget =>
        cases h
        exact ⟨hf, [], by simp, by simp [isCoded, hget]⟩
      · next op hget =>
        have hcoded : isCoded layout table p = true := by
          simp only [not_or] at hframe
          simp [isCoded, hget, hframe]
        unfold addCommand addSizedCommand at h
        split at h
        · simp only at h
          split at h
          · cases h
            simp at hf
          · cases h
          · next field hfield =>
            cases h
            simp only [List.append_eq_nil_iff] at hf
            refine ⟨hf.1, _, List.filter_append _ _, ?_⟩
            have hscope : Scope.ofDialect ⟨layout, .twoPass⟩ dir p.1.section_ (p.1.address + p.2) =
                Scope.ofDialect ⟨layout, .twoPass⟩ dir none (p.1.address + p.2) := by
              cases layout with
              | sectioned => exact absurd rfl hl
              | _ => rfl
            rw [List.filter_cons_of_pos hcoded, List.filter_nil]
            refine .cons ⟨op, field, hget, ?_, rfl⟩ .nil
            rw [hscope]
            exact hfield
        · cases h

theorem codes_addRows (hl : layout ≠ .sectioned) {ps : List (Row × Int)}
    (h : addRows ⟨layout, .twoPass⟩ dir table moved e ps = .ok e') (hf : e'.found = []) :
    e.found = [] ∧
      ∃ os, e'.records.filter ObjectRecord.isCode = e.records.filter ObjectRecord.isCode ++ os ∧
        List.Forall₂ (CodeRecord ⟨layout, .twoPass⟩ dir table) (ps.filter (isCoded layout table))
          os := by
  induction ps generalizing e with
  | nil =>
    cases h
    exact ⟨hf, [], by simp, .nil⟩
  | cons p ps ih =>
    rw [addRows] at h
    split at h
    · cases h
    · next e₁ he₁ =>
      obtain ⟨hf₁, os', hrecords', hall'⟩ := ih h
      obtain ⟨hf₀, os, hrecords, hall⟩ := codes_addRow hl he₁ hf₁
      refine ⟨hf₀, os ++ os', by rw [hrecords', hrecords, List.append_assoc], ?_⟩
      rw [← List.singleton_append, List.filter_append]
      exact List.rel_append hall hall'

theorem codes_make (hl : layout ≠ .sectioned) {rows : List Row} {records : List ObjectRecord}
    {written : List Modification}
    (h : make ⟨layout, .twoPass⟩ dir table rows = .ok (.made records written)) :
    List.Forall₂ (CodeRecord ⟨layout, .twoPass⟩ dir table)
      ((sizedRows rows).filter (isCoded layout table)) (records.filter ObjectRecord.isCode) := by
  unfold make at h
  split at h
  · next first last hfirst hlast =>
    obtain ⟨e, he, hf, -, -, rfl⟩ := (between_eq_made_iff _ _ _ _ _ _ _ _).1 h
    obtain ⟨-, os, hrecords, hall⟩ := codes_addRows hl he hf
    have hmods :
        (e.modified.map (ObjectRecord.modification · none)).filter ObjectRecord.isCode = [] := by
      simp [ObjectRecord.isCode]
    rw [List.filter_append, List.filter_append, hmods,
      List.filter_cons_of_neg (by simp [ObjectRecord.isCode]), hrecords]
    simpa [ObjectRecord.isCode] using hall
  · cases h

end TwoPass.FlatCode

namespace TwoPass.SectionedCode

variable {sec : Section} {e e' : Emission}

theorem codes_writeModifications {label : Option String} {ms : List (Int × String)}
    (h : writeModifications dir label e ms = .ok e') :
    e'.records.filter ObjectRecord.isCode = e.records.filter ObjectRecord.isCode := by
  induction ms generalizing e with
  | nil =>
    cases h
    rfl
  | cons m ms ih =>
    obtain ⟨a, x⟩ := m
    rw [writeModifications] at h
    split at h
    · cases h
    · rw [ih h]
      simp [ObjectRecord.isCode]

theorem codes_addDirective {r : Row} {size : Int}
    (h : addDirective dialect dir sec r size e = .ok e') :
    e'.records.filter ObjectRecord.isCode = e.records.filter ObjectRecord.isCode := by
  have hadd : ∀ {e : Emission} {o : ObjectRecord}, o.isCode = false →
      (e.add o).records.filter ObjectRecord.isCode = e.records.filter ObjectRecord.isCode := by
    intro e o ho
    simp [Emission.add, ho]
  have hsized : ∀ {o}, o.isCode = false → e.addSized size o = .ok e' →
      e'.records.filter ObjectRecord.isCode = e.records.filter ObjectRecord.isCode := by
    intro o ho hs
    rw [Emission.eq_of_addSized hs]
    exact hadd ho
  unfold addDirective at h
  simp only at h
  split_ifs at h
  · obtain ⟨-, e₁, he₁, rfl⟩ := closeSection_eq_ok_iff.1 h
    rw [addEntry, hadd rfl, ← codes_writeModifications he₁]
    split <;> rfl
  · cases h
    exact hadd rfl
  · exact hsized rfl h
  · split at h
    · cases h
    · obtain ⟨name, -, rfl⟩ := (map_eq_ok_iff _ _ _).1 h
      exact hadd rfl
  · exact hsized rfl h
  · exact hsized rfl h
  · cases h
    rfl

theorem codes_addExport {scope : Scope} {r : Row} (h : addExport dialect scope r e = .ok e') :
    e'.records.filter ObjectRecord.isCode = e.records.filter ObjectRecord.isCode := by
  unfold addExport definitionRecord at h
  split_ifs at h
  · split at h
    · cases h
    · next o ho =>
      have hcode : o.isCode = false := by
        split at ho
        · cases ho
        · split at ho
          · cases ho
          · obtain ⟨name, -, rfl⟩ := (map_eq_ok_iff _ _ _).1 ho
            rfl
      cases h
      simp [Emission.add, hcode]
  · cases h
    rfl

theorem codes_addCommand (hsec : p.1.section_ = sec.label)
    (h : addCommand dialect (Scope.ofDialect dialect dir sec.label (p.1.address + p.2)) table p.1
      p.2 e = .ok e') :
    ∃ os, e'.records.filter ObjectRecord.isCode = e.records.filter ObjectRecord.isCode ++ os ∧
      List.Forall₂ (CodeRecord dialect dir table) ([p].filter (isCoded .sectioned table)) os := by
  obtain ⟨hget, rfl⟩ | ⟨op, field, hget, hfield, rfl⟩ := addCommand_cases h
  · exact ⟨[], by simp, by simp [isCoded, hget]⟩
  · have hcoded : isCoded .sectioned table p = true := by simp [isCoded, hget]
    refine ⟨_, List.filter_append _ _, ?_⟩
    rw [List.filter_cons_of_pos hcoded, List.filter_nil]
    refine .cons ⟨op, field, hget, ?_, rfl⟩ .nil
    rw [hsec]
    exact hfield

theorem codes_addRow (hsec : p.1.section_ = sec.label)
    (h : addRow dialect dir table sec e p = .ok e') (hf : e'.found = []) :
    ∃ os, e'.records.filter ObjectRecord.isCode = e.records.filter ObjectRecord.isCode ++ os ∧
      List.Forall₂ (CodeRecord dialect dir table) ([p].filter (isCoded .sectioned table)) os := by
  obtain ⟨e₁, e₂, hdirective, hexport, hcommand⟩ := (addRow_eq_ok_iff hf).1 h
  rw [← codes_addDirective hdirective, ← codes_addExport hexport]
  exact codes_addCommand hsec hcommand

theorem codes_addRows {ps : List (Row × Int)} (hsec : ∀ p ∈ ps, p.1.section_ = sec.label)
    (h : addRows dialect dir table sec e ps = .ok e') (hf : e'.found = []) :
    ∃ os, e'.records.filter ObjectRecord.isCode = e.records.filter ObjectRecord.isCode ++ os ∧
      List.Forall₂ (CodeRecord dialect dir table) (ps.filter (isCoded .sectioned table)) os := by
  induction ps generalizing e with
  | nil =>
    cases h
    exact ⟨[], by simp, .nil⟩
  | cons p ps ih =>
    rw [addRows] at h
    split at h
    · cases h
    · next e₁ he₁ =>
      obtain ⟨os', hrecords', hall'⟩ := ih (fun q hq => hsec q (List.mem_cons_of_mem _ hq)) h
      obtain ⟨os, hrecords, hall⟩ :=
        codes_addRow (hsec p List.mem_cons_self) he₁ (found_addRows h hf)
      refine ⟨os ++ os', by rw [hrecords', hrecords, List.append_assoc], ?_⟩
      rw [← List.singleton_append, List.filter_append]
      exact List.rel_append hall hall'

theorem sectionsOf_rows (ps : List (Row × Int)) :
    (sectionsOf ps).flatMap (·.rows) = ps ∧ ∀ sec ∈ sectionsOf ps, ∀ p ∈ sec.rows,
      p.1.section_ = sec.label := by
  induction ps with
  | nil => exact ⟨rfl, by simp [sectionsOf]⟩
  | cons p ps ih =>
    obtain ⟨hrows, hlabels⟩ := ih
    rw [sectionsOf]
    split
    · next sec secs heq =>
      rw [heq, List.flatMap_cons] at hrows
      rw [heq, List.forall_mem_cons] at hlabels
      split
      · next hsame =>
        refine ⟨by rw [List.flatMap_cons, List.cons_append, hrows],
          List.forall_mem_cons.2 ⟨?_, hlabels.2⟩⟩
        exact List.forall_mem_cons.2 ⟨hsame.symm, hlabels.1⟩
      · refine ⟨by rw [List.flatMap_cons, List.flatMap_cons, hrows]; rfl,
          List.forall_mem_cons.2 ⟨by simp, ?_⟩⟩
        exact List.forall_mem_cons.2 hlabels
    · next heq =>
      rw [heq] at hrows
      refine ⟨by rw [← hrows]; rfl, fun sec hsec q hq => ?_⟩
      rw [List.mem_singleton.1 hsec] at hq ⊢
      rw [List.mem_singleton.1 hq]

theorem codes_addSections {secs : List Section}
    (hsec : ∀ sec ∈ secs, ∀ p ∈ sec.rows, p.1.section_ = sec.label)
    (h : addSections dialect dir table e secs = .ok e') (hf : e'.found = []) : e.found = [] ∧
      ∃ os, e'.records.filter ObjectRecord.isCode = e.records.filter ObjectRecord.isCode ++ os ∧
        List.Forall₂ (CodeRecord dialect dir table)
          ((secs.flatMap (·.rows)).filter (isCoded .sectioned table)) os := by
  induction secs generalizing e with
  | nil =>
    cases h
    exact ⟨hf, [], by simp, .nil⟩
  | cons sec secs ih =>
    rw [addSections] at h
    split at h
    · cases h
    · next e₁ he₁ =>
      obtain ⟨hf₁, os', hrecords', hall'⟩ := ih (fun k hk => hsec k (List.mem_cons_of_mem _ hk)) h
      obtain ⟨os, hrecords, hall⟩ := codes_addRows (hsec sec List.mem_cons_self) he₁ hf₁
      have hf₀ : ({ e with open_ := [] } : Emission).found = [] := found_addRows he₁ hf₁
      refine ⟨hf₀, os ++ os', by rw [hrecords', hrecords, List.append_assoc], ?_⟩
      rw [List.flatMap_cons, List.filter_append]
      exact List.rel_append hall hall'

theorem codes_make {rows : List Row} {records : List ObjectRecord} {written : List Modification}
    (h : make dialect dir table rows = .ok (.made records written)) :
    List.Forall₂ (CodeRecord dialect dir table) ((sizedRows rows).filter (isCoded .sectioned table))
      (records.filter ObjectRecord.isCode) := by
  obtain ⟨hrows, hlabels⟩ := sectionsOf_rows (sizedRows rows)
  obtain ⟨e, he, hf, -, rfl, -⟩ := make_eq_made_iff.1 h
  obtain ⟨-, os, hrecords, hall⟩ := codes_addSections hlabels he hf
  rw [hrows] at hall
  rw [hrecords]
  exact hall

end TwoPass.SectionedCode

theorem codes_makeCode {layout : Layout} {rows : List Row} {records : List ObjectRecord}
    {written : List Modification}
    (h : makeCode ⟨layout, .twoPass⟩ dir table rows = .ok (.made records written)) :
    List.Forall₂ (CodeRecord ⟨layout, .twoPass⟩ dir table)
      ((sizedRows rows).filter (isCoded layout table)) (records.filter ObjectRecord.isCode) := by
  by_cases hl : layout = .sectioned
  · subst hl
    exact TwoPass.SectionedCode.codes_make h
  · rw [makeCode_flat hl] at h
    exact TwoPass.FlatCode.codes_make hl h

/-! ## Commands of a listing -/

/-- The address that a name of a section has among symbols; flat programs are one section. -/
def Symbols.address? : Symbols → Option String → String → Option Int
  | .flat names, _, x => (names.get? x).join
  | .sectioned sections, k, x => (sections.get? k).bind fun ns => NameTable.address? ns.get? x

/-- What a listing says of a command: which operands it has, what the names in them stand for, and
where these stand. -/
structure CommandListed (layout : Layout) (rows : List Row) (symbols : Symbols) (p : Row × Int)
    (size : Int) : Prop where
  admitted : Admitted size p.1.line.operands
  knows : ∃ rd lacking,
    (Scope.ofDialect ⟨layout, .twoPass⟩ (.ofSymbols symbols) p.1.section_ (p.1.address + p.2)).Knows
      rd lacking ∧
      ∀ x, rd.relative x = (symbols.address? p.1.section_ x).map
        (displacement · (p.1.address + p.2))
  carried : ∀ x target, symbols.address? p.1.section_ x = some target →
    ∃ q ∈ rows, q.section_ = p.1.section_ ∧ q.line.name? = some x ∧ q.address = target

variable {layout : Layout} {use : NameUse} {program : List Line} {rows : List Row}
  {symbols : Symbols} {op : Operation}

theorem TwoPass.Flat.commandListed (hl : layout ≠ .sectioned) (ht : table.Sized layout)
    (hlist : list ⟨layout, .twoPass⟩ table use program = .ok (.listed rows symbols))
    (hp : p ∈ sizedRows rows)
    (hop : Statement.ofMnemonic layout table p.1.line.mnemonic = .command op) :
    CommandListed layout rows symbols p op.size := by
  obtain ⟨first, body, last, rest, rfl, hprog, rfl, rfl⟩ := (list_eq_listed_iff _ _ _ _ _ _).1 hlist
  obtain ⟨n, m, hrows⟩ := FlatCode.sizedRows_listedRows layout table first body last
  rw [hrows, List.mem_cons, List.mem_append, List.mem_singleton] at hp
  have hbody : p ∈ flatRows layout table first body := by
    obtain hp | hp | hp := hp
    · rw [hp, (Statement.ofMnemonic_eq_start_iff _ _ _).2 hprog.start] at hop
      cases hop
    · exact hp
    · rw [hp, (Statement.ofMnemonic_eq_finish_iff _ _ _).2 hprog.finish] at hop
      cases hop
  have hnone : ∀ q ∈ flatRows layout table first body, q.1.section_ = none := by
    intro q hq
    obtain ⟨pre, l, post, -, rfl⟩ := (mem_placed_iff _ _ _).1 hq
    rfl
  have haddress :
      ∀ x, Symbols.address? (.flat ((listedNames layout table first body last).mapValues some))
        p.1.section_ x = (listedNames layout table first body last).get? x := by
    intro x
    rw [Symbols.address?, join_get?_listedNames, get?_listedNames]
  constructor
  · exact (hprog.body_fits.fits p hbody).admitted ht hop
  · refine ⟨.ofAddresses (listedNames layout table first body last).get? (p.1.address + p.2),
      Fault.IsUndefinedName, ?_, fun x => by rw [haddress]; rfl⟩
    have hknows :=
      Scope.flat_knows ⟨layout, .twoPass⟩ (listedNames layout table first body last)
        (p.1.address + p.2)
    cases layout with
    | sectioned => exact absurd rfl hl
    | _ => exact hknows
  · intro x target hx
    have hconcat :=
      addressOf_concat ((flatRows layout table first body).map (·.1))
        ⟨flatEnd layout table first body, last, none⟩
    rw [haddress, get?_listedNames, flatLabels, ← hconcat] at hx
    obtain ⟨q, hq, hname, haddr⟩ := exists_of_addressOf hx
    refine ⟨q, List.mem_cons_of_mem _ hq, ?_, hname, haddr⟩
    rw [hnone p hbody]
    obtain hq | hq := List.mem_append.1 hq
    · obtain ⟨q', hq', rfl⟩ := List.mem_map.1 hq
      exact hnone q' hq'
    · rw [List.mem_singleton.1 hq]

theorem TwoPass.Sectioned.commandListed (ht : table.Sized .sectioned)
    (hlist : list table use program = .ok (.listed rows symbols)) (hp : p ∈ sizedRows rows)
    (hop : Statement.ofMnemonic .sectioned table p.1.line.mnemonic = .command op)
    (hend : p.1.line.mnemonic ≠ sectionEnd) :
    CommandListed .sectioned rows symbols p op.size := by
  obtain ⟨-, sections, rfl, haccepted, -⟩ := of_list hlist
  have hrows := haccepted.rows_eq
  subst hrows
  rw [SectionedCode.sizedRows_flatMap haccepted.listed] at hp
  obtain ⟨sec, hsec, hp⟩ := List.mem_flatMap.1 hp
  have hlisted := haccepted.listed sec hsec
  have hlabel := SectionedCode.section_of_mem_sizedBlock hp
  have hbody : p ∈ sec.rows table := by
    rw [SectionedCode.sizedBlock, List.mem_cons, List.mem_append, List.mem_singleton] at hp
    obtain hp | hp | hp := hp
    · obtain hm | hm := hlisted.opener
      · rw [hp, (Statement.ofMnemonic_eq_start_iff _ _ _).2 hm] at hop
        cases hop
      · rw [hp, (Statement.ofMnemonic_eq_newSection_iff _ _).2 hm] at hop
        cases hop
    · exact hp
    · obtain hm | hm := SectionedCode.closingLine_mnemonic hlisted.closer
      · rw [hp] at hend
        exact absurd hm hend
      · rw [hp, (Statement.ofMnemonic_eq_finish_iff _ _ _).2 hm] at hop
        cases hop
  obtain ⟨ns, hns, hnames⟩ := haccepted.names hsec
  rw [← hlabel] at hns
  have haddress :
      ∀ x, Symbols.address? (.sectioned sections) p.1.section_ x =
        (sec.names .twoPass table).address? x := by
    intro x
    rw [Symbols.address?, hns, ← hnames]
    rfl
  constructor
  · exact (hlisted.fits p hbody).admitted ht hop
  · refine ⟨_, _, Scope.section_knows hns _, fun x => ?_⟩
    rw [haddress, ← hnames, NameTable.address?]
    show (ns.get? x).bind _ = _
    cases ns.get? x <;> rfl
  · intro x target hx
    rw [haddress, ControlSection.names,
      NameTable.address?_eq_some_iff hlisted.compatible hlisted.bare] at hx
    obtain ⟨q, hq, hname, haddr⟩ := hx
    have hmem : q ∈ listedRows table sec ∧ q.section_ = sec.opener.label := by
      obtain hq | hq := List.mem_append.1 hq
      · obtain ⟨q', hq', rfl⟩ := List.mem_map.1 hq
        refine ⟨List.mem_cons_of_mem _ (List.mem_append_left _ hq), ?_⟩
        exact SectionedCode.section_of_mem_sizedBlock
          (List.mem_cons_of_mem _ (List.mem_append_left _ hq'))
      · unfold ControlSection.endRows at hq
        split at hq
        · next hm =>
          rw [List.mem_singleton.1 hq]
          exact ⟨by simp [listedRows, closingLine, hm], rfl⟩
        · cases hq
    exact ⟨q, List.mem_flatMap.2 ⟨sec, hsec, hmem.1⟩, by rw [hmem.2, hlabel], hname, haddr⟩

theorem commandListed (ht : table.Sized layout)
    (hlist : listProgram ⟨layout, .twoPass⟩ table use program = .ok (.listed rows symbols))
    (hp : p ∈ sizedRows rows)
    (hop : Statement.ofMnemonic layout table p.1.line.mnemonic = .command op)
    (hend : p.1.line.mnemonic ≠ TwoPass.Sectioned.sectionEnd) :
    CommandListed layout rows symbols p op.size := by
  by_cases hl : layout = .sectioned
  · subst hl
    exact TwoPass.Sectioned.commandListed ht hlist hp hop hend
  · rw [listProgram_flat hl] at hlist
    exact TwoPass.Flat.commandListed hl ht hlist hp hop

/-- The field of a command with a relative name is the displacement of the name. -/
theorem CommandListed.displacement (h : CommandListed layout rows symbols p 3)
    {field : Option String} (hfield : Field.ofOperands ⟨layout, .twoPass⟩
      (Scope.ofDialect ⟨layout, .twoPass⟩ (.ofSymbols symbols) p.1.section_ (p.1.address + p.2)) 3
        p.1.line.operands = .ok field) :
    ∃ x target, p.1.line.operands = [.relative x] ∧ symbols.address? p.1.section_ x = some target ∧
      field = some (Text.hex .upper 4 (Assembler.displacement target (p.1.address + p.2))) := by
  obtain ⟨rd, lacking, hknows, hrelative⟩ := h.knows
  have hadmitted := h.admitted
  generalize hops : p.1.line.operands = ops at hadmitted hfield
  cases hadmitted with
  | distance x =>
    have hdigits := operandDigits?_relative rd x
    cases haddr : symbols.address? p.1.section_ x with
    | none =>
      rw [hrelative, haddr] at hdigits
      obtain ⟨y, hy⟩ := Field.ofOperands_error ⟨layout, .twoPass⟩ hknows hdigits
      rw [hy] at hfield
      cases hfield
    | some target =>
      rw [hrelative, haddr] at hdigits
      rw [Field.ofOperands_admitted ⟨layout, .twoPass⟩ hknows (.distance x) hdigits] at hfield
      exact ⟨x, target, rfl, haddr, (Except.ok.inj hfield).symm⟩

/-- In a program that two passes accept, the commands of the object program are those of the rows
with a mnemonic in the table.  The digits of a command of three bytes, read as a number of sixteen
bits in two's complement from the address of the next row on, lead to the label that its relative
name refers to if and only if the distance is such a number; they fill four places if and only if
the distance is below 10000 (hexadecimal).  The rows that close sections are no commands of the
program, even if the table has their mnemonic. -/
theorem displacements_decode_iff (layout : Layout) (table : OpTable) (ht : table.Sized layout)
    (i : Int) (program : List Line) (rows : List Row) (symbols : Symbols)
    (records : List ObjectRecord) (written : List Modification)
    (h : assembleTwice ⟨layout, .twoPass⟩ table (.ofIndex i) program =
      .ok (.listed rows symbols, some (.ok (.made records written)))) :
    List.Forall₂ (fun p o => ∃ op field, table.get? p.1.line.mnemonic = some op ∧
        o = .code p.1.address p.2 (codeByte op.opcode p.1.line.operands) field ∧
        (Statement.ofMnemonic layout table p.1.line.mnemonic = .command op → op.size = 3 →
          p.1.line.mnemonic ≠ TwoPass.Sectioned.sectionEnd →
          ∃ x target, p.1.line.operands = [.relative x] ∧
          symbols.address? p.1.section_ x = some target ∧
            (∃ q ∈ rows, q.section_ = p.1.section_ ∧ q.line.name? = some x ∧ q.address = target) ∧
            (signedValue field + (p.1.address + p.2) = target ↔
              -0x8000 ≤ target - (p.1.address + p.2) ∧ target - (p.1.address + p.2) < 0x8000) ∧
            (field.length = 4 ↔ target - (p.1.address + p.2) < 0x10000)))
      ((sizedRows rows).filter (isCoded layout table)) (records.filter ObjectRecord.isCode) := by
  obtain ⟨hlist, hmake⟩ := assembleTwice_eq_made_iff.1 h
  have hrows : ∀ p ∈ (sizedRows rows).filter (isCoded layout table), p ∈ sizedRows rows :=
    fun p hp => List.mem_of_mem_filter hp
  have hcodes := (List.forall₂_and_left _ _).2 ⟨hrows, codes_makeCode hmake⟩
  refine hcodes.imp fun p o hcode => ?_
  obtain ⟨hp, op, field, hget, hfield, rfl⟩ := hcode
  refine ⟨op, Field.shown field, hget, rfl, fun hop hsize hend => ?_⟩
  have hcommand := commandListed ht hlist hp hop hend
  rw [hsize] at hfield hcommand
  obtain ⟨x, target, hops, haddr, rfl⟩ := hcommand.displacement hfield
  exact ⟨x, target, hops, haddr, hcommand.carried x target haddr, signedValue_displacement _ _,
    length_displacement _ _⟩

/-- A jump over half of what sixteen bits hold. -/
def farJump : List Line :=
  [⟨some "P", ⟨"START", []⟩⟩, ⟨none, ⟨"JMP", [.relative "X"]⟩⟩, ⟨none, ⟨"RESB", [.number 0x8000]⟩⟩,
    ⟨some "X", ⟨"END", []⟩⟩]

/-- The jump is accepted, and its digits lead below the program. -/
theorem farJump_misled :
    (OpTable.ofTriples [("JMP", 1, 3)]).Sized .relocatable ∧
      ∃ rows symbols records written field,
        assembleTwice ⟨.relocatable, .twoPass⟩ (.ofTriples [("JMP", 1, 3)]) (.ofIndex 1) farJump =
          .ok (.listed rows symbols, some (.ok (.made records written))) ∧
        records.filter ObjectRecord.isCode = [.code 0 3 6 field] ∧
        symbols.address? none "X" = some 0x8003 ∧
        signedValue field + 3 ≠ 0x8003 := by
  have ht : (OpTable.ofTriples [("JMP", 1, 3)]).Sized .relocatable :=
    OpTable.sized_of_forall (by decide +kernel)
  obtain ⟨rows, symbols, records, written, h, hrows, hsymbols⟩ : ∃ rows symbols records written,
      assembleTwice ⟨.relocatable, .twoPass⟩ (.ofTriples [("JMP", 1, 3)]) (.ofIndex 1) farJump =
        .ok (.listed rows symbols, some (.ok (.made records written))) ∧
      (sizedRows rows).filter (isCoded .relocatable (.ofTriples [("JMP", 1, 3)])) =
        [(⟨0, ⟨none, ⟨"JMP", [.relative "X"]⟩⟩, none⟩, 3)] ∧
      symbols.address? none "X" = some 0x8003 := ⟨_, _, _, _, rfl, rfl, rfl⟩
  have hall := displacements_decode_iff .relocatable _ ht 1 farJump rows symbols records written h
  rw [hrows] at hall
  obtain ⟨o, os, hcode, hrest, hrecords⟩ := List.forall₂_cons_left_iff.1 hall
  cases hrest
  obtain ⟨op, field, hget, rfl, hdecoded⟩ := hcode
  obtain rfl : op = ⟨1, 3⟩ := (Option.some.inj hget).symm
  obtain ⟨x, target, hops, haddr, -, hiff, -⟩ := hdecoded rfl rfl (by decide)
  cases hops
  have htarget : target = 0x8003 := Option.some.inj (haddr.symm.trans hsymbols)
  subst htarget
  refine ⟨ht, rows, symbols, records, written, field, h, hrecords, hsymbols, fun heq => ?_⟩
  have hnear := hiff.1 heq
  omega

end Assembler
