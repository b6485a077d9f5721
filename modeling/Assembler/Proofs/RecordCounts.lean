import Assembler.Proofs.ChangedTables
import Assembler.Proofs.MovedRows

/-! # How many records hold text

The second pass looks at a row twice: a storage directive gives its record, and a mnemonic of the
operation table gives the record of a command, whether or not it is a directive too.  The sheet of
operations refuses only four directives as mnemonics.  So the lines of a program that have other
directives of the table for their mnemonics give records of their own, and their number is exactly
what the records are too many (`text_records_count`). -/

namespace Assembler
set_option autoImplicit false

/-- The record stands for data or for space. -/
def ObjectRecord.isStorage : ObjectRecord → Bool
  | .data _ _ _ | .space _ _ => true
  | _ => false

theorem countP_isText (os : List ObjectRecord) :
    os.countP ObjectRecord.isText = os.countP ObjectRecord.isStorage +
      os.countP ObjectRecord.isCode := by
  induction os with
  | nil => rfl
  | cons o os ih =>
    rw [List.countP_cons, List.countP_cons, List.countP_cons, ih]
    cases o <;> simp [ObjectRecord.isText, ObjectRecord.isStorage, ObjectRecord.isCode] <;> omega

/-- The mnemonics of storage directives. -/
def storageMnemonics : List String := ["WORD", "RESW", "BYTE", "RESB"]

/-- The directives that cut a program into sections and link them. -/
def linkMnemonics : List String := ["CSECT", "EXTDEF", "EXTREF"]

/-- The directives, apart from the first and the last one of a program, that may be mnemonics of
operations. -/
def unguardedMnemonics : List String := "RESW" :: "RESB" :: linkMnemonics

/-- The line is a storage directive. -/
def Line.stores (l : Line) : Bool := storageMnemonics.contains l.mnemonic

variable {table : OpTable} {dir : Directory} {p : Row × Int}

/-! ## Storage directives in the second pass -/

namespace TwoPass.FlatCode

variable {d : Dialect} {moved : Bool} {e e' : Emission}

theorem storageRecord?_cases (r : Row) (size : Int) :
    r.line.stores = false ∧ storageRecord? r size = none ∨
      r.line.stores = true ∧ ∃ o, storageRecord? r size = some o ∧ o.isStorage = true := by
  unfold storageRecord? Line.stores
  simp only
  split_ifs with hreserved hbyte hword
  · refine .inr ⟨?_, _, rfl, rfl⟩
    obtain hm | hm := hreserved <;> rw [hm] <;> decide
  · exact .inr ⟨by rw [hbyte]; decide, _, rfl, rfl⟩
  · exact .inr ⟨by rw [hword]; decide, _, rfl, rfl⟩
  · rw [not_or] at hreserved
    exact .inl ⟨by simp [storageMnemonics, hreserved, hbyte, hword], rfl⟩

theorem storages_addStorage {r : Row} {size : Int} (h : addStorage r size e = .ok e') :
    e'.records.countP ObjectRecord.isStorage = e.records.countP ObjectRecord.isStorage +
      if r.line.stores then 1 else 0 := by
  unfold addStorage at h
  obtain ⟨hstores, hrecord⟩ | ⟨hstores, o, hrecord, ho⟩ := storageRecord?_cases r size
  · rw [hrecord] at h
    cases h
    simp [hstores]
  · simp only [hrecord] at h
    split at h <;> cases h
    simp [hstores, ho]

theorem storages_addCommand {op : Operation} {r : Row} {size : Int}
    (h : addCommand d dir moved op r size e = .ok e') :
    e'.records.countP ObjectRecord.isStorage = e.records.countP ObjectRecord.isStorage := by
  unfold addCommand at h
  split at h
  · unfold addSizedCommand at h
    simp only at h
    split at h <;> cases h
    · rfl
    · simp [ObjectRecord.isStorage]
  · cases h

theorem storages_addRow (h : addRow d dir table moved e p = .ok e') :
    e'.records.countP ObjectRecord.isStorage =
      e.records.countP ObjectRecord.isStorage + if p.1.line.stores then 1 else 0 := by
  unfold addRow at h
  simp only at h
  split at h
  · next hframe =>
    cases h
    obtain hm | hm := hframe <;> simp [Line.stores, storageMnemonics, hm]
  · split at h
    · cases h
    · next e₁ he₁ =>
      rw [← storages_addStorage he₁]
      split at h
      · cases h
        rfl
      · exact storages_addCommand h

theorem storages_addRows {ps : List (Row × Int)} (h : addRows d dir table moved e ps = .ok e') :
    e'.records.countP ObjectRecord.isStorage = e.records.countP ObjectRecord.isStorage +
      ps.countP (·.1.line.stores) := by
  induction ps generalizing e with
  | nil =>
    cases h
    rfl
  | cons p ps ih =>
    rw [addRows] at h
    split at h
    · cases h
    · next e₁ he₁ =>
      rw [ih h, storages_addRow he₁, List.countP_cons]
      omega

theorem storages_make {rows : List Row} {records : List ObjectRecord} {written : List Modification}
    (h : make d dir table rows = .ok (.made records written)) :
    records.countP ObjectRecord.isStorage = (sizedRows rows).countP (·.1.line.stores) := by
  unfold make at h
  split at h
  · obtain ⟨e, he, -, -, -, rfl⟩ := (between_eq_made_iff _ _ _ _ _ _ _ _).1 h
    have hmods :
        (e.modified.map (ObjectRecord.modification · none)).countP ObjectRecord.isStorage = 0 := by
      simp [List.countP_eq_zero, ObjectRecord.isStorage]
    have hrows := storages_addRows he
    simp only [List.countP_append, List.countP_cons, List.countP_nil, ObjectRecord.isStorage]
      at hrows ⊢
    simpa [hmods] using hrows
  · cases h

end TwoPass.FlatCode

namespace TwoPass.SectionedCode

variable {sec : Section} {e e' : Emission}

theorem storages_writeModifications {label : Option String} {ms : List (Int × String)}
    (h : writeModifications dir label e ms = .ok e') :
    e'.records.countP ObjectRecord.isStorage = e.records.countP ObjectRecord.isStorage := by
  induction ms generalizing e with
  | nil =>
    cases h
    rfl
  | cons m ms ih =>
    obtain ⟨a, x⟩ := m
    rw [writeModifications] at h
    split at h
    · cases h
    · rw [ih h]
      simp [ObjectRecord.isStorage]

theorem storages_addDirective {r : Row} {size : Int}
    (h : addDirective dialect dir sec r size e = .ok e') :
    e'.records.countP ObjectRecord.isStorage = e.records.countP ObjectRecord.isStorage +
      if r.line.stores then 1 else 0 := by
  have hadd : ∀ (e : Emission) (o : ObjectRecord), (e.add o).records.countP ObjectRecord.isStorage =
      e.records.countP ObjectRecord.isStorage + if o.isStorage then 1 else 0 := by
    intro e o
    simp [Emission.add, List.countP_append, List.countP_cons]
  have hsized : ∀ {o}, e.addSized size o = .ok e' → e'.records.countP ObjectRecord.isStorage =
      e.records.countP ObjectRecord.isStorage + if o.isStorage then 1 else 0 := by
    intro o ho
    rw [Emission.eq_of_addSized ho, hadd]
  unfold addDirective at h
  unfold Line.stores
  simp only at h
  generalize r.line.mnemonic = m at h
  split_ifs at h with h₁ h₂ h₃ h₄ h₅ h₆
  · have hm : storageMnemonics.contains m = false := by obtain rfl | rfl := h₁ <;> decide
    obtain ⟨-, e₁, he₁, rfl⟩ := closeSection_eq_ok_iff.1 h
    rw [addEntry, hadd, hm, ← storages_writeModifications he₁]
    split <;> rfl
  · have hm : storageMnemonics.contains m = false := by obtain rfl | rfl := h₂ <;> decide
    cases h
    rw [hadd, hm]
    rfl
  · have hm : storageMnemonics.contains m = true := by obtain rfl | rfl := h₃ <;> decide
    rw [hsized h, hm]
    rfl
  · subst h₄
    split at h
    · cases h
    · obtain ⟨name, -, rfl⟩ := (map_eq_ok_iff _ _ _).1 h
      rw [hadd]
      rfl
  · subst h₅
    rw [hsized h]
    rfl
  · subst h₆
    rw [hsized h]
    rfl
  · cases h
    simp only [not_or] at h₃
    simp [storageMnemonics, h₃, h₅, h₆]

theorem storages_addExport {scope : Scope} {r : Row} (h : addExport dialect scope r e = .ok e') :
    e'.records.countP ObjectRecord.isStorage = e.records.countP ObjectRecord.isStorage := by
  unfold addExport definitionRecord at h
  split_ifs at h
  · split at h
    · cases h
    · next o ho =>
      have hstorage : o.isStorage = false := by
        split at ho
        · cases ho
        · split at ho
          · cases ho
          · obtain ⟨name, -, rfl⟩ := (map_eq_ok_iff _ _ _).1 ho
            rfl
      cases h
      simp [Emission.add, hstorage]
  · cases h
    rfl

theorem storages_addRow (h : addRow dialect dir table sec e p = .ok e') (hf : e'.found = []) :
    e'.records.countP ObjectRecord.isStorage =
      e.records.countP ObjectRecord.isStorage + if p.1.line.stores then 1 else 0 := by
  obtain ⟨e₁, e₂, hdirective, hexport, hcommand⟩ := (addRow_eq_ok_iff hf).1 h
  rw [← storages_addDirective hdirective, ← storages_addExport hexport]
  obtain ⟨-, rfl⟩ | ⟨op, field, -, -, rfl⟩ := addCommand_cases hcommand
  · rfl
  · simp [ObjectRecord.isStorage]

theorem storages_addRows {ps : List (Row × Int)} (h : addRows dialect dir table sec e ps = .ok e')
    (hf : e'.found = []) :
    e'.records.countP ObjectRecord.isStorage = e.records.countP ObjectRecord.isStorage +
      ps.countP (·.1.line.stores) := by
  induction ps generalizing e with
  | nil =>
    cases h
    rfl
  | cons p ps ih =>
    rw [addRows] at h
    split at h
    · cases h
    · next e₁ he₁ =>
      rw [ih h, storages_addRow he₁ (found_addRows h hf), List.countP_cons]
      omega

theorem storages_addSections {secs : List Section}
    (h : addSections dialect dir table e secs = .ok e') (hf : e'.found = []) :
    e'.records.countP ObjectRecord.isStorage =
      e.records.countP ObjectRecord.isStorage + (secs.flatMap (·.rows)).countP
        (·.1.line.stores) := by
  induction secs generalizing e with
  | nil =>
    cases h
    rfl
  | cons sec secs ih =>
    rw [addSections] at h
    split at h
    · cases h
    · next e₁ he₁ =>
      rw [ih h, storages_addRows he₁ (found_addSections h hf), List.flatMap_cons,
        List.countP_append, Nat.add_assoc]

theorem storages_make {rows : List Row} {records : List ObjectRecord} {written : List Modification}
    (h : make dialect dir table rows = .ok (.made records written)) :
    records.countP ObjectRecord.isStorage = (sizedRows rows).countP (·.1.line.stores) := by
  obtain ⟨e, he, hf, -, rfl, -⟩ := make_eq_made_iff.1 h
  rw [storages_addSections he hf, (sectionsOf_rows (sizedRows rows)).1]
  exact Nat.zero_add _

end TwoPass.SectionedCode

/-! ## Rows -/

/-- The second pass makes the record of a command for a row of the line. -/
def Line.coded (layout : Layout) (table : OpTable) (l : Line) : Bool :=
  table.contains l.mnemonic &&
    (layout == .sectioned || !(l.mnemonic == "START" || l.mnemonic == "END"))

theorem sizedRows_map_fst (rows : List Row) : (sizedRows rows).map (·.1) = rows := by
  fun_induction sizedRows rows with
  | case1 => rfl
  | case2 r => rfl
  | case3 r next rest ih => rw [List.map_cons, ih]

theorem countP_sizedRows (q : Line → Bool) (rows : List Row) :
    (sizedRows rows).countP (fun p => q p.1.line) = (rows.map (·.line)).countP q := by
  conv_rhs => rw [← sizedRows_map_fst rows, List.map_map]
  rw [List.countP_map]
  rfl

variable {layout : Layout} {use : NameUse} {program : List Line} {rows : List Row}
  {symbols : Symbols} {records : List ObjectRecord} {written : List Modification}

theorem makeCode_count
    (h : makeCode ⟨layout, .twoPass⟩ dir table rows = .ok (.made records written)) :
    records.countP ObjectRecord.isText =
      (rows.map (·.line)).countP Line.stores + (rows.map (·.line)).countP
        (Line.coded layout table) := by
  have hstorages :
      records.countP ObjectRecord.isStorage = (sizedRows rows).countP (·.1.line.stores) := by
    by_cases hl : layout = .sectioned
    · subst hl
      exact TwoPass.SectionedCode.storages_make h
    · rw [makeCode_flat hl] at h
      exact TwoPass.FlatCode.storages_make h
  have hcodes :
      records.countP ObjectRecord.isCode = (sizedRows rows).countP fun p =>
        p.1.line.coded layout table := by
    rw [List.countP_eq_length_filter, ← (codes_makeCode h).length_eq,
      ← List.countP_eq_length_filter]
    rfl
  rw [countP_isText, hstorages, hcodes, countP_sizedRows, countP_sizedRows]

/-! ## Lines -/

/-- The lines of a listing: in sectioned programs each section is closed by a line of its own. -/
def listedLines (layout : Layout) (l : Line) : List Line :=
  if layout = .sectioned ∧ l.mnemonic = "CSECT" then [TwoPass.Sectioned.closingLine l, l] else [l]

/-- The line is a storage directive, it cuts or links sections, or it is an operation of the
table. -/
def Line.Known (table : OpTable) (l : Line) : Prop :=
  l.stores = true ∨ l.mnemonic ∈ linkMnemonics ∨ table.contains l.mnemonic = true

theorem Line.Fits.known {l : Line} {a : Int} (h : l.Fits layout table use a) : l.Known table := by
  obtain ⟨kind, -, hkind, -⟩ | ⟨op, hop, -⟩ := h.cases
  · have hm : l.mnemonic = kind.mnemonic := Statement.stands_of_eq hkind
    refine .inl ?_
    rw [Line.stores, hm]
    cases kind <;> decide
  · have hget := (Statement.stands_of_eq hop).1
    exact .inr (.inr (by simp [OrderedMap.contains, hget]))

/-- A program as the first pass lists it: the lines of its body between the directives that frame
it. -/
structure ListedAs (layout : Layout) (table : OpTable) (first : Line) (body : List Line)
    (last : Line) (rows : List Row) :
    Prop where
  start : first.mnemonic = "START"
  inside : ∀ l ∈ body, l.mnemonic ≠ "START" ∧ l.mnemonic ≠ "END"
  finish : last.mnemonic = "END"
  known : ∀ l ∈ body, l.Known table
  lines : rows.map (·.line) = first :: (body.flatMap (listedLines layout) ++ [last])

theorem TwoPass.Flat.listedAs (hl : layout ≠ .sectioned)
    (h : list ⟨layout, .twoPass⟩ table use program = .ok (.listed rows symbols)) :
    ∃ first body last rest, program = first :: (body ++ last :: rest) ∧
      ListedAs layout table first body last rows := by
  obtain ⟨first, body, last, rest, rfl, hprog, rfl, -⟩ := (list_eq_listed_iff _ _ _ _ _ _).1 h
  refine ⟨first, body, last, rest, rfl, hprog.start, hprog.body_fits.not_frame, hprog.finish,
    fun l hmem => ?_, ?_⟩
  · obtain ⟨a, hfit⟩ := hprog.body_fits.line_fits hmem
    exact hfit.known
  · have hlines : body.flatMap (listedLines layout) = body := by
      have hone : listedLines layout = fun l => [l] := by
        funext l
        exact if_neg fun hsection => hl hsection.1
      rw [hone, List.flatMap_singleton']
    rw [hlines]
    simp only [listedRows, List.map_cons, List.map_append, List.map_map, List.map_nil]
    exact congrArg (fun ls => first :: (ls ++ [last])) (placed_map_line layout table none _ body)

namespace TwoPass.Sectioned

theorem lines_listedRows (table : OpTable) (sec : ControlSection) :
    (listedRows table sec).map (·.line) = sec.opener :: (sec.body ++ [closingLine sec.closer]) := by
  simp only [listedRows, List.map_cons, List.map_append, List.map_map, List.map_nil]
  exact congrArg (fun ls => sec.opener :: (ls ++ _)) (placed_map_line .sectioned table _ _ sec.body)

theorem lines_sectionsFrom (table : OpTable) (opener : Line) {body : List Line} {last : Line}
    (rest : List Line) (hbody : ∀ l ∈ body, l.mnemonic ≠ "START" ∧ l.mnemonic ≠ "END")
    (hlast : last.mnemonic = "END") :
    ((sectionsFrom opener (body ++ last :: rest)).flatMap (listedRows table)).map (·.line) =
      opener :: (body.flatMap (listedLines .sectioned) ++ [last]) := by
  have hcloser : closingLine last = last := if_neg (by simp [hlast])
  induction body generalizing opener with
  | nil => simp [sectionsFrom, hlast, lines_listedRows, hcloser]
  | cons l body ih =>
    have hend := (hbody l List.mem_cons_self).2
    have ih := fun opener => ih opener fun k hk => hbody k (List.mem_cons_of_mem _ hk)
    rw [List.cons_append, sectionsFrom, if_neg hend, List.flatMap_cons]
    by_cases hsection : l.mnemonic = "CSECT"
    · rw [if_pos hsection, List.flatMap_cons, List.map_append, lines_listedRows, ih, listedLines,
        if_pos ⟨rfl, hsection⟩]
      rfl
    · rw [if_neg hsection, listedLines, if_neg fun h => hsection h.2]
      have ih := ih opener
      cases hsecs : sectionsFrom opener (body ++ last :: rest) with
      | nil => simp [hsecs] at ih
      | cons sec secs =>
        simp only [hsecs, List.flatMap_cons, List.map_append, lines_listedRows, List.cons_append,
          List.cons.injEq] at ih
        simp only [prependBody, List.flatMap_cons, List.map_append, lines_listedRows,
          List.cons_append, List.nil_append, ih.1, ← ih.2]

theorem listedAs (h : list table use program = .ok (.listed rows symbols)) :
    ∃ first body last rest, program = first :: (body ++ last :: rest) ∧
      ListedAs .sectioned table first body last rows := by
  obtain ⟨⟨first, body, last, rest, rfl, hfirst, hbody, hlast⟩, sections, -, haccepted, -⟩ :=
    of_list h
  refine ⟨first, body, last, rest, rfl, hfirst, hbody, hlast, fun l hl => ?_, ?_⟩
  · have hlines := sectionsFrom_flatMap first rest hbody hlast
    have hmem :
        l ∈ (sectionsFrom first (body ++ last :: rest)).flatMap fun sec =>
          sec.opener :: sec.body := by
      rw [hlines]
      exact List.mem_cons_of_mem _ hl
    obtain ⟨sec, hsec, hmem⟩ := List.mem_flatMap.1 hmem
    have hlisted := haccepted.listed sec hsec
    rcases List.mem_cons.1 hmem with rfl | hmem
    · refine .inr (.inl ?_)
      rw [hlisted.opener.resolve_left (hbody _ hl).1]
      decide
    · rw [← placed_map_line .sectioned table sec.opener.label 0 sec.body] at hmem
      obtain ⟨p, hp, rfl⟩ := List.mem_map.1 hmem
      obtain hfits | ⟨hlink, -⟩ := hlisted.fits p hp
      · exact hfits.known
      · refine .inr (.inl ?_)
        obtain hlink | hlink := hlink <;> rw [hlink] <;> decide
  · rw [haccepted.rows_eq]
    exact lines_sectionsFrom table first rest hbody hlast

end TwoPass.Sectioned

theorem listedAs_of_listProgram
    (h : listProgram ⟨layout, .twoPass⟩ table use program = .ok (.listed rows symbols)) :
    ∃ first body last rest, program = first :: (body ++ last :: rest) ∧
      ListedAs layout table first body last rows := by
  by_cases hl : layout = .sectioned
  · subst hl
    exact TwoPass.Sectioned.listedAs h
  · rw [listProgram_flat hl] at h
    exact TwoPass.Flat.listedAs hl h

/-! ## Counting -/

/-- The line is a directive, and an operation of the table. -/
def Line.doubled (table : OpTable) (l : Line) : Bool :=
  unguardedMnemonics.contains l.mnemonic && table.contains l.mnemonic

/-- The line opens a section, and the line that closes the one before it is an operation of the
table. -/
def Line.doublesEnd (layout : Layout) (table : OpTable) (l : Line) : Bool :=
  layout == .sectioned && l.mnemonic == "CSECT" && table.contains TwoPass.Sectioned.sectionEnd

/-- The table leaves alone the directives that the sheet refuses. -/
def Guarded (table : OpTable) : Prop := ∀ m ∈ directiveMnemonics, table.contains m = false

theorem countP_add_countP {α : Type} {p q r s : α → Bool} {xs : List α}
    (h : ∀ x ∈ xs, (p x).toNat + (q x).toNat = (r x).toNat + (s x).toNat) :
    xs.countP p + xs.countP q = xs.countP r + xs.countP s := by
  induction xs with
  | nil => rfl
  | cons x xs ih =>
    have hx := h x List.mem_cons_self
    have hxs := ih fun y hy => h y (List.mem_cons_of_mem _ hy)
    have hnat : ∀ b : Bool, (if b = true then 1 else 0) = b.toNat := by decide
    simp only [List.countP_cons, hnat]
    omega

/-- A line that the first pass lets through gives one record, unless it cuts or links sections, and
one more if it is doubled. -/
theorem Line.Known.count {l : Line} (h : l.Known table) (ht : Guarded table) :
    l.stores.toNat + (table.contains l.mnemonic).toNat =
      (!linkMnemonics.contains l.mnemonic).toNat + (l.doubled table).toNat := by
  have hword := ht "WORD" (by decide)
  have hbyte := ht "BYTE" (by decide)
  unfold Line.Known Line.stores at h
  unfold Line.stores Line.doubled
  generalize l.mnemonic = m at *
  by_cases hm : m ∈ storageMnemonics ++ linkMnemonics
  · simp only [storageMnemonics, linkMnemonics, List.cons_append, List.nil_append, List.mem_cons,
      List.not_mem_nil, or_false] at hm
    rcases hm with rfl | rfl | rfl | rfl | rfl | rfl | rfl
    all_goals simp_all [storageMnemonics, linkMnemonics, unguardedMnemonics]
  · rw [List.mem_append, not_or] at hm
    have hu : m ∉ unguardedMnemonics := by
      simp only [unguardedMnemonics, List.mem_cons, not_or]
      refine ⟨?_, ?_, hm.2⟩
      all_goals
        rintro rfl
        exact hm.1 (by decide)
    have hc : table.contains m = true := by simpa [hm] using h
    simp [hm, hu, hc]

theorem countP_listedLines (layout : Layout) (q : Line → Bool) (body : List Line) :
    (body.flatMap (listedLines layout)).countP q = body.countP q +
      body.countP fun l => layout == .sectioned && l.mnemonic == "CSECT" &&
        q (TwoPass.Sectioned.closingLine l) := by
  induction body with
  | nil => rfl
  | cons l body ih =>
    rw [List.flatMap_cons, List.countP_append, ih, List.countP_cons, List.countP_cons, listedLines]
    split
    · next hsection =>
      simp only [List.countP_cons, List.countP_nil, hsection, beq_self_eq_true, Bool.true_and]
      omega
    · next hsection =>
      have hfalse : (layout == .sectioned && l.mnemonic == "CSECT") = false := by
        simpa using hsection
      simp only [List.countP_cons, List.countP_nil, hfalse, Bool.false_and, Bool.false_eq_true,
        if_false]
      omega

theorem ListedAs.count {first : Line} {body : List Line} {last : Line}
    (h : ListedAs layout table first body last rows) (ht : Guarded table) :
    (rows.map (·.line)).countP Line.stores + (rows.map (·.line)).countP (Line.coded layout table) =
      body.countP (fun l => !linkMnemonics.contains l.mnemonic) + body.countP (·.doubled table) +
        body.countP (·.doublesEnd layout table) := by
  have hstart := ht "START" (by decide)
  have hend := ht "END" (by decide)
  have hstores : (rows.map (·.line)).countP Line.stores = body.countP Line.stores := by
    have hclosing : body.countP (fun l => layout == .sectioned && l.mnemonic == "CSECT" &&
        (TwoPass.Sectioned.closingLine l).stores) = 0 := by
      rw [List.countP_eq_zero]
      intro l _ hl
      simp only [Bool.and_eq_true, beq_iff_eq] at hl
      obtain ⟨⟨-, hm⟩, hstores⟩ := hl
      rw [Line.stores, TwoPass.Sectioned.closingLine, if_pos hm] at hstores
      cases hstores
    have hfirst : first.stores = false := by rw [Line.stores, h.start]; decide
    have hlast : last.stores = false := by rw [Line.stores, h.finish]; decide
    rw [h.lines, List.countP_cons, List.countP_append, countP_listedLines, hclosing]
    simp [hfirst, hlast]
  have hcodes : (rows.map (·.line)).countP (Line.coded layout table) =
      body.countP (fun l => table.contains l.mnemonic) + body.countP
        (·.doublesEnd layout table) := by
    have hinside :
        body.countP (Line.coded layout table) = body.countP fun l => table.contains l.mnemonic := by
      refine List.countP_congr fun l hl => ?_
      simp [Line.coded, h.inside l hl]
    have hclosing : body.countP (fun l => layout == .sectioned && l.mnemonic == "CSECT" &&
        (TwoPass.Sectioned.closingLine l).coded layout table) =
          body.countP (·.doublesEnd layout table) := by
      refine List.countP_congr fun l _ => ?_
      simp only [Line.doublesEnd, Bool.and_eq_true, beq_iff_eq, and_congr_right_iff]
      intro hsection
      rw [TwoPass.Sectioned.closingLine, if_pos hsection.2, Line.coded, hsection.1,
        beq_self_eq_true, Bool.true_or, Bool.and_true]
      rfl
    have hfirst : first.coded layout table = false := by simp [Line.coded, h.start, hstart]
    have hlast : last.coded layout table = false := by simp [Line.coded, h.finish, hend]
    rw [h.lines, List.countP_cons, List.countP_append, countP_listedLines, hclosing, hinside]
    simp [hfirst, hlast]
  have hlines : body.countP Line.stores + body.countP (fun l => table.contains l.mnemonic) =
      body.countP (fun l => !linkMnemonics.contains l.mnemonic) + body.countP (·.doubled table) :=
    countP_add_countP fun l hl => (h.known l hl).count ht
  omega

namespace Sheet

theorem guarded_of_read {d : Dialect} {sizes : List Int} {sheet : List SheetRow} {s : Reading}
    (h : Sheet.read d sizes sheet = .ok s) (hproblems : s.problems = []) : Guarded s.table := by
  intro m hm
  by_contra hcontains
  obtain ⟨op, hop⟩ := Option.isSome_iff_exists.1 (Bool.not_eq_false _ ▸ hcontains)
  refine inOrder_of_read (P := fun m _ => m ∉ directiveMnemonics) (fun table codes m op hrow => ?_)
    h hproblems m op hop hm
  simp only [rowProblems, List.append_eq_nil_iff] at hrow
  have hdirective := hrow.1.1.1.2
  by_contra hmem
  simp [hmem] at hdirective

end Sheet

/-- A sheet without problems keeps only four directives from being operations.  The records with
text of a program are as many as its lines between the frame that do not cut or link sections; and
one more for each line that is a directive and an operation, and for each line that opens a section
if the line that closes the one before it is an operation. -/
theorem text_records_count (layout : Layout) (sheet : List SheetRow) (reading : Sheet.Reading)
    (hread : Sheet.read ⟨layout, .twoPass⟩ (Dialect.sizes ⟨layout, .twoPass⟩) sheet = .ok reading)
    (hproblems : reading.problems = []) (use : NameUse) (program : List Line) (rows : List Row)
    (symbols : Symbols)
    (hlisted : listProgram ⟨layout, .twoPass⟩ reading.table use program =
      .ok (.listed rows symbols)) (records : List ObjectRecord) (written : List Modification)
    (hmade : makeCode ⟨layout, .twoPass⟩ (.ofSymbols symbols) reading.table rows =
      .ok (.made records written)) :
    (∀ m ∈ directiveMnemonics, reading.table.contains m = false) ∧
      ∃ (first : Line) (body : List Line) (last : Line) (rest : List Line),
        program = first :: (body ++ last :: rest) ∧ first.mnemonic = "START" ∧
        (∀ l ∈ body, l.mnemonic ≠ "START" ∧ l.mnemonic ≠ "END") ∧ last.mnemonic = "END" ∧
        records.countP ObjectRecord.isText =
          body.countP (fun l => !linkMnemonics.contains l.mnemonic) + body.countP
            (·.doubled reading.table) + body.countP (·.doublesEnd layout reading.table) ∧
        (records.countP ObjectRecord.isText =
          body.countP (fun l => !linkMnemonics.contains l.mnemonic) ↔
          ∀ l ∈ body, l.doubled reading.table = false ∧
          l.doublesEnd layout reading.table = false) := by
  have hguarded := Sheet.guarded_of_read hread hproblems
  obtain ⟨first, body, last, rest, rfl, hrows⟩ := listedAs_of_listProgram hlisted
  have hcount := (makeCode_count hmade).trans (hrows.count hguarded)
  refine ⟨hguarded, first, body, last, rest, rfl, hrows.start, hrows.inside, hrows.finish,
    hcount, ?_⟩
  have hnone :
      body.countP (·.doubled reading.table) + body.countP (·.doublesEnd layout reading.table) = 0 ↔
      ∀ l ∈ body, l.doubled reading.table = false ∧ l.doublesEnd layout reading.table = false := by
    rw [Nat.add_eq_zero_iff, List.countP_eq_zero, List.countP_eq_zero]
    simp only [Bool.not_eq_true, ← forall_and]
  rw [← hnone, hcount]
  omega

/-- An operation with the name of a storage directive. -/
def doubledSheet : List SheetRow := [⟨some "RESB", some "1", some "1"⟩]

/-- A program of one line that reserves a byte. -/
def doubledLines : List Line :=
  [⟨some "P", ⟨"START", [.number 1]⟩⟩, ⟨none, ⟨"RESB", [.number 1]⟩⟩, ⟨none, ⟨"END", []⟩⟩]

/-- The sheet is read without a problem, and the line gives two records. -/
theorem doubledLines_count :
    ∃ reading rows symbols records,
      Sheet.read ⟨.absolute, .twoPass⟩ (Dialect.sizes ⟨.absolute, .twoPass⟩) doubledSheet =
        .ok reading ∧
      reading.problems = [] ∧
      listProgram ⟨.absolute, .twoPass⟩ reading.table (.ofIndex 2) doubledLines =
        .ok (.listed rows symbols) ∧
      makeCode ⟨.absolute, .twoPass⟩ (.ofSymbols symbols) reading.table rows =
        .ok (.made records []) ∧
      records.map (·.text .flat) = ["H P 000001 1", "T 000001 1", "T 000001 1 04", "E 000001"] ∧
      ∃ (first : Line) (body : List Line) (last : Line) (rest : List Line),
      doubledLines = first :: (body ++ last :: rest) ∧
        records.countP ObjectRecord.isText =
          body.countP (fun l => !linkMnemonics.contains l.mnemonic) + body.countP
            (·.doubled reading.table) + body.countP (·.doublesEnd .absolute reading.table) := by
  obtain ⟨reading, hread, hproblems, rows, symbols, hlisted, records, hmade, htexts⟩ : ∃ reading,
      Sheet.read ⟨.absolute, .twoPass⟩ (Dialect.sizes ⟨.absolute, .twoPass⟩) doubledSheet =
        .ok reading ∧
      reading.problems = [] ∧ ∃ rows symbols,
      listProgram ⟨.absolute, .twoPass⟩ reading.table (.ofIndex 2) doubledLines =
        .ok (.listed rows symbols) ∧ ∃ records,
      makeCode ⟨.absolute, .twoPass⟩ (.ofSymbols symbols) reading.table rows =
        .ok (.made records []) ∧
      records.map (·.text .flat) = ["H P 000001 1", "T 000001 1", "T 000001 1 04", "E 000001"] :=
    ⟨_, rfl, rfl, _, _, rfl, _, rfl, by decide +kernel⟩
  obtain ⟨-, first, body, last, rest, hcut, -, -, -, hcount, -⟩ :=
    text_records_count .absolute doubledSheet reading hread hproblems _ doubledLines rows symbols
      hlisted records [] hmade
  exact ⟨reading, rows, symbols, records, hread, hproblems, hlisted, hmade, htexts, first, body,
    last, rest, hcut, hcount⟩

end Assembler
