import Mathlib.Data.List.Forall2
import Assembler.Proofs.CodeWidths
import Assembler.Proofs.OperandLanguage

/-! # Sheets without problems

The rows of a sheet are checked one after another, against the table and the codes that the rows
before have left.  A cell is read as the number literal it starts with (`CellValue`), and what the
rows list (`Lists`) is to be free of repetitions, of reserved names and of numbers out of range
(`Accepted`).  `sheet_accepted_iff` says that the checks ask for this and no more. -/

namespace Assembler
set_option autoImplicit false

/-! ## Code bytes -/

theorem codeByte_eq_or {opcode : Int} (h : 0 ≤ opcode) (ops : List Operand) : codeByte opcode ops =
    ((opcode.toNat <<< 2 ||| (Addressing.ofOperands ops).code.toNat : Nat) : Int) := by
  have hcode := (Addressing.ofOperands ops).code_bounds
  rw [← Nat.shiftLeft_add_eq_or_of_lt (by omega), Nat.shiftLeft_eq, codeByte]
  omega

theorem Addressing.code_injective : Function.Injective Addressing.code := by
  intro a b
  cases a <;> cases b <;> decide

theorem eq_of_codeByte_eq {v w : Int} {ops ops' : List Operand}
    (h : codeByte v ops = codeByte w ops') :
    v = w ∧ Addressing.ofOperands ops = Addressing.ofOperands ops' := by
  have hcode := (Addressing.ofOperands ops).code_bounds
  have hcode' := (Addressing.ofOperands ops').code_bounds
  unfold codeByte at h
  exact ⟨by omega, Addressing.code_injective (by omega)⟩

namespace Sheet
open Grammar Reader

variable {d : Dialect} {cell : Option String} {row : SheetRow} {op : Operation} {v : Int}
  {ps : List (String × Operation)} {s : Reading} {m : String}

/-! ## Cells -/

/-- The number of a cell: an empty one is zero, any other is the literal that it starts with. -/
inductive CellValue (d : Dialect) : Option String → Int → Prop
  | missing : CellValue d none 0
  | blank {s : String} : Blanks s.toList → CellValue d (some s) 0
  | literal {s : String} {lit : List Char} {v : Int} : Literal d s.toList lit v → ¬Overlong lit →
      CellValue d (some s) v

/-- A cell whose literal is decimal and has too many digits. -/
def OverlongCell (d : Dialect) (cell : Option String) : Prop :=
  ∃ s lit v, cell = some s ∧ Literal d s.toList lit v ∧ Overlong lit

/-- The code and the size of a row; both are zero if a literal is too long. -/
inductive RowValue (d : Dialect) (row : SheetRow) : Operation → Prop
  | numbers {v w : Int} : CellValue d row.opcode v → CellValue d row.size w → RowValue d row ⟨v, w⟩
  | overlongOpcode : OverlongCell d row.opcode → RowValue d row ⟨0, 0⟩
  | overlongSize {v : Int} : CellValue d row.opcode v → OverlongCell d row.size →
      RowValue d row ⟨0, 0⟩

theorem isEmpty_strip_iff (s : String) : (Text.strip s).isEmpty = true ↔ Blanks s.toList := by
  have hstrip : Text.stripChars s.toList = [] ↔ ∀ c ∈ s.toList.dropWhile Text.isBlank,
      Text.isBlank c = true := by
    simp [Text.stripChars]
  have hall : (∀ c ∈ s.toList.dropWhile Text.isBlank, Text.isBlank c = true) ↔ Blanks s.toList := by
    constructor
    · intro h c hc
      rw [← List.takeWhile_append_dropWhile (p := Text.isBlank) (l := s.toList)] at hc
      obtain hc | hc := List.mem_append.1 hc
      · exact List.all_eq_true.1 List.all_takeWhile c hc
      · exact h c hc
    · exact fun h c hc => h c ((List.dropWhile_sublist _).subset hc)
  rw [String.isEmpty_iff, Text.strip, ← hall, ← hstrip]
  simp

theorem not_blanks_of_literal {s : String} {lit : List Char} (h : Literal d s.toList lit v) :
    ¬Blanks s.toList := by
  intro hblanks
  obtain ⟨c, t, rfl, hc⟩ := h.isNumber.head
  have hblank := hblanks c (h.front.subset List.mem_cons_self)
  obtain hc | rfl := hc
  · rw [isBlank_of_isNameChar (isNameChar_of_isDecimal hc)] at hblank
    cases hblank
  · cases hblank

theorem cellNumber_eq_map {s : String} (h : ¬Blanks s.toList) :
    cellNumber d (some s) = (readFront (number d) s).map (·.1) :=
  if_neg fun hempty => h ((isEmpty_strip_iff s).1 hempty)

theorem cellNumber_cases (d : Dialect) (cell : Option String) :
    (∃ v, CellValue d cell v ∧ cellNumber d cell = .ok v) ∨
    (OverlongCell d cell ∧ ∃ count, cellNumber d cell = .error (.tooManyDigits count)) ∨
    ∃ place, cellNumber d cell = .error (.unreadable place) := by
  cases cell with
  | none => exact .inl ⟨0, .missing, rfl⟩
  | some s =>
    by_cases hblanks : Blanks s.toList
    · exact .inl ⟨0, .blank hblanks, if_pos ((isEmpty_strip_iff s).2 hblanks)⟩
    · rw [cellNumber_eq_map hblanks]
      obtain ⟨lit, v, hlit⟩ | ⟨place, herror⟩ := literal_or_unreadable d s
      · by_cases hlong : Overlong lit
        · obtain ⟨count, herror⟩ := hlit.readFront_eq_error hlong
          exact .inr (.inl ⟨⟨s, lit, v, rfl, hlit, hlong⟩, count, by rw [herror, map_error]⟩)
        · obtain ⟨left, hread⟩ := hlit.readFront_eq_ok hlong
          exact .inl ⟨v, .literal hlit hlong, by rw [hread, map_ok]⟩
      · exact .inr (.inr ⟨place, by rw [herror, map_error]⟩)

theorem CellValue.cellNumber (h : CellValue d cell v) : cellNumber d cell = .ok v := by
  cases h with
  | missing => rfl
  | blank hblanks => exact if_pos ((isEmpty_strip_iff _).2 hblanks)
  | literal hlit hshort =>
    obtain ⟨left, hread⟩ := hlit.readFront_eq_ok hshort
    rw [cellNumber_eq_map (not_blanks_of_literal hlit), hread, map_ok]

theorem OverlongCell.cellNumber (h : OverlongCell d cell) :
    ∃ count, cellNumber d cell = .error (.tooManyDigits count) := by
  obtain ⟨s, lit, v, rfl, hlit, hlong⟩ := h
  obtain ⟨count, herror⟩ := hlit.readFront_eq_error hlong
  exact ⟨count, by rw [cellNumber_eq_map (not_blanks_of_literal hlit), herror, map_error]⟩

theorem rowOperation_eq_ok_iff : rowOperation d row = .ok op ↔ RowValue d row op := by
  constructor
  · intro h
    unfold rowOperation at h
    obtain ⟨v, hv, heq⟩ | ⟨hlong, count, heq⟩ | ⟨place, heq⟩ := cellNumber_cases d row.opcode
    all_goals rw [heq] at h
    · obtain ⟨w, hw, heq'⟩ | ⟨hlong, count, heq'⟩ | ⟨place, heq'⟩ := cellNumber_cases d row.size
      all_goals rw [heq'] at h
      · obtain rfl := Except.ok.inj h
        exact .numbers hv hw
      · obtain rfl := Except.ok.inj h
        exact .overlongSize hv hlong
      · cases h
    · obtain rfl := Except.ok.inj h
      exact .overlongOpcode hlong
    · cases h
  · intro h
    unfold rowOperation
    cases h with
    | numbers hv hw => rw [hv.cellNumber, hw.cellNumber]
    | overlongOpcode hlong =>
      obtain ⟨count, herror⟩ := hlong.cellNumber
      rw [herror]
    | overlongSize hv hlong =>
      obtain ⟨count, herror⟩ := hlong.cellNumber
      rw [hv.cellNumber, herror]

/-! ## Rows -/

/-- The mnemonic of a row that counts. -/
def nameOf? (row : SheetRow) : Option String :=
  (row.mnemonic.map Text.strip).filter fun m => !m.isEmpty

/-- What the rows with a mnemonic list. -/
def Lists (d : Dialect) (rows : List SheetRow) (ps : List (String × Operation)) : Prop :=
  List.Forall₂ (fun row p => nameOf? row = some p.1 ∧ RowValue d row p.2)
    (rows.filter fun row => (nameOf? row).isSome) ps

/-- Operations that make a table without problems. -/
structure Accepted (d : Dialect) (ps : List (String × Operation)) : Prop where
  names : (ps.map (·.1)).Nodup
  directives : ∀ p ∈ ps, p.1 ∉ ["START", "END", "WORD", "BYTE"]
  registers : ∀ p ∈ ps, ∀ c ∈ "123456789abcdef".toList, p.1 ≠ String.ofList ['R', c]
  codes : (ps.map (·.2.opcode)).Nodup
  range : ∀ p ∈ ps, 0 ≤ p.2.opcode ∧ p.2.opcode ≤ 63
  sizes : ∀ p ∈ ps, p.2.size ∈ if d = ⟨.absolute, .twoPass⟩ then [1, 2, 4] else [1, 2, 3, 4]

theorem not_mem_registerMnemonics_iff : m ∉ registerMnemonics ↔ ∀ c ∈ "123456789abcdef".toList,
    m ≠ String.ofList ['R', c] := by
  have hlist :
      registerMnemonics = "123456789abcdef".toList.map fun c => String.ofList ['R', c] := by decide
  rw [hlist, List.mem_map]
  simp only [not_exists, not_and, eq_comm, ne_eq]

theorem sizes_eq (d : Dialect) :
    d.sizes = if d = ⟨.absolute, .twoPass⟩ then [1, 2, 4] else [1, 2, 3, 4] := by
  unfold Dialect.sizes Dialect.hasRelative Dialect.absoluteTwoPass absoluteSizes allSizes
  by_cases h : d = ⟨.absolute, .twoPass⟩ <;> simp [h]

theorem rowProblems_eq_nil_iff {sizes codes : List Int} {table : OpTable} :
    rowProblems sizes table codes m op = [] ↔
    table.contains m = false ∧ m ∉ registerMnemonics ∧ m ∉ directiveMnemonics ∧
    (0 ≤ op.opcode ∧ op.opcode ≤ 63) ∧
      op.size ∈ sizes ∧ op.opcode ∉ codes := by
  have hrange : (0 ≤ op.opcode * 4 + 1 ∧ op.opcode * 4 + 1 ≤ 0xFF) ↔ 0 ≤ op.opcode ∧
      op.opcode ≤ 63 := by omega
  simp only [rowProblems, hrange, List.append_eq_nil_iff, ite_eq_left_iff, ite_eq_right_iff,
    reduceCtorEq, imp_false, Bool.not_eq_true, List.contains_iff_mem, Classical.not_not, and_assoc]

theorem accepted_concat (table : OpTable)
    (hnames : ∀ m, table.contains m = true ↔ m ∈ ps.map (·.1)) :
    Accepted d (ps ++ [(m, op)]) ↔ Accepted d ps ∧
      rowProblems d.sizes table (ps.map (·.2.opcode)) m op = [] := by
  have hname : table.contains m = false ↔ m ∉ ps.map (·.1) := by rw [← hnames, Bool.not_eq_true]
  have hlast : ∀ P : String × Operation → Prop, (∀ p ∈ ps ++ [(m, op)], P p) ↔ (∀ p ∈ ps, P p) ∧
      P (m, op) := by
    intro P
    rw [List.forall_mem_append, List.forall_mem_singleton]
  have hnodup : ∀ {α : Type} (f : String × Operation → α), ((ps ++ [(m, op)]).map f).Nodup ↔
      (ps.map f).Nodup ∧ f (m, op) ∉ ps.map f := by
    intro α f
    rw [List.map_append, List.map_singleton, ← List.concat_eq_append, List.nodup_concat, and_comm]
  rw [rowProblems_eq_nil_iff, hname, not_mem_registerMnemonics_iff, sizes_eq]
  constructor
  · rintro ⟨hnames, hdirectives, hregisters, hcodes, hrange, hsizes⟩
    rw [hnodup] at hnames hcodes
    rw [hlast] at hdirectives hregisters hrange hsizes
    exact ⟨⟨hnames.1, hdirectives.1, hregisters.1, hcodes.1, hrange.1, hsizes.1⟩, hnames.2,
      hregisters.2, hdirectives.2, hrange.2, hsizes.2, hcodes.2⟩
  · rintro ⟨⟨hnames, hdirectives, hregisters, hcodes, hrange, hsizes⟩, hname, hregister, hdirective,
      hopcode, hsize, hcode⟩
    exact ⟨(hnodup _).2 ⟨hnames, hname⟩, (hlast _).2 ⟨hdirectives, hdirective⟩,
      (hlast _).2 ⟨hregisters, hregister⟩, (hnodup _).2 ⟨hcodes, hcode⟩,
      (hlast _).2 ⟨hrange, hopcode⟩, (hlast _).2 ⟨hsizes, hsize⟩⟩

theorem accepted_nil (d : Dialect) : Accepted d [] :=
  ⟨List.nodup_nil, nofun, nofun, List.nodup_nil, nofun, nofun⟩

/-! ## Reading on -/

/-- What a reading keeps of the operations listed so far.  A name that is repeated overwrites its
entry, so the entries are the operations only as long as there is no problem. -/
structure Reading.Keeps (d : Dialect) (s : Reading) (ps : List (String × Operation)) : Prop where
  codes : s.codes = ps.map (·.2.opcode)
  names : ∀ m, s.table.contains m = true ↔ m ∈ ps.map (·.1)
  problems : s.problems = [] ↔ Accepted d ps
  entries : s.problems = [] → s.table.entries = ps

theorem Reading.keeps_start (d : Dialect) : Reading.start.Keeps d [] :=
  ⟨rfl, fun _ => iff_of_false Bool.false_ne_true List.not_mem_nil, iff_of_true rfl (accepted_nil d),
    fun _ => rfl⟩

theorem addRow_of_none {sizes : List Int} {k : Nat} (h : nameOf? row = none) :
    s.addRow d sizes k row = .ok s := by
  unfold Reading.addRow
  unfold nameOf? at h
  cases hname : row.mnemonic.map Text.strip with
  | none => rfl
  | some m =>
    rw [hname] at h
    have hempty : m.isEmpty = true := by simpa [Option.filter] using h
    exact if_pos hempty

theorem addRow_of_some {sizes : List Int} {k : Nat} (h : nameOf? row = some m) :
    s.addRow d sizes k row = (rowOperation d row).map fun op =>
      ⟨s.table.insert m op, s.codes ++ [op.opcode],
        s.problems ++ (rowProblems sizes s.table s.codes m op).map fun p => ⟨k, p⟩⟩ := by
  unfold Reading.addRow
  obtain ⟨hname, hne⟩ := Option.filter_eq_some_iff.1 h
  rw [hname]
  exact if_neg (by simpa using hne)

/-- One row: the name and the operation join what was listed. -/
theorem Reading.Keeps.add (h : s.Keeps d ps) (m : String) (op : Operation) (k : Nat) :
    Reading.Keeps d ⟨s.table.insert m op, s.codes ++ [op.opcode],
      s.problems ++ (rowProblems d.sizes s.table s.codes m op).map fun p =>
        ⟨k, p⟩⟩ (ps ++ [(m, op)]) := by
  have hproblems :
      s.problems ++ (rowProblems d.sizes s.table s.codes m op).map
        (fun p => (⟨k, p⟩ : RowDiagnostic)) = [] ↔
      s.problems = [] ∧ rowProblems d.sizes s.table s.codes m op = [] := by
    rw [List.append_eq_nil_iff, List.map_eq_nil_iff]
  refine ⟨by simp [h.codes], fun j => ?_, ?_, fun hnone => ?_⟩
  · rw [List.map_append, List.mem_append, ← h.names]
    by_cases hj : m = j
    · simp [OrderedMap.contains, hj]
    · simp [OrderedMap.contains, hj, Ne.symm hj]
  · rw [hproblems, h.problems, accepted_concat s.table h.names, h.codes]
  · obtain ⟨hbefore, hrow⟩ := hproblems.1 hnone
    have hnew : s.table.get? m = none := by
      have hcontains := (rowProblems_eq_nil_iff.1 hrow).1
      simpa [OrderedMap.contains] using hcontains
    change (s.table.insert m op).entries = _
    rw [OrderedMap.entries_insert hnew, h.entries hbefore]

theorem Reading.Keeps.addRows {s' : Reading} {rows : List SheetRow} {k : Nat} (h : s.Keeps d ps)
    (hrows : s.addRows d d.sizes k rows = .ok s') :
    ∃ more, Lists d rows more ∧ s'.Keeps d (ps ++ more) := by
  induction rows generalizing s ps k with
  | nil =>
    obtain rfl := Except.ok.inj hrows
    exact ⟨[], .nil, by rwa [List.append_nil]⟩
  | cons row rows ih =>
    unfold Reading.addRows at hrows
    cases hname : nameOf? row with
    | none =>
      rw [addRow_of_none hname] at hrows
      obtain ⟨more, hlists, hkeeps⟩ := ih h hrows
      refine ⟨more, ?_, hkeeps⟩
      unfold Lists
      rwa [List.filter_cons_of_neg (by simp [hname])]
    | some m =>
      rw [addRow_of_some hname] at hrows
      cases hop : rowOperation d row with
      | error x =>
        rw [hop] at hrows
        cases hrows
      | ok op =>
        rw [hop] at hrows
        obtain ⟨more, hlists, hkeeps⟩ := ih (h.add m op k) hrows
        refine ⟨(m, op) :: more, ?_, by rwa [List.append_cons]⟩
        unfold Lists
        rw [List.filter_cons_of_pos (by simp [hname])]
        exact .cons ⟨hname, rowOperation_eq_ok_iff.1 hop⟩ hlists

theorem Lists.unique {rows : List SheetRow} {qs : List (String × Operation)} (h : Lists d rows ps)
    (h' : Lists d rows qs) :
    ps = qs := by
  refine List.right_unique_forall₂' ?_ h h'
  rintro row ⟨m, op⟩ ⟨m', op'⟩ ⟨hm, hop⟩ ⟨hm', hop'⟩
  have hname := hm.symm.trans hm'
  have hvalue := (rowOperation_eq_ok_iff.2 hop).symm.trans (rowOperation_eq_ok_iff.2 hop')
  exact Prod.ext (Option.some.inj hname) (Except.ok.inj hvalue)

/-- An operation of a sheet without problems has a code of six bits and one of the sizes. -/
theorem operation_of_read {rows : List SheetRow} (h : read d d.sizes rows = .ok s)
    (hnone : s.problems = []) (hop : s.table.get? m = some op) :
    (0 ≤ op.opcode ∧ op.opcode ≤ 63) ∧ op.size ∈ d.sizes := by
  obtain ⟨ps, -, hkeeps⟩ := (Reading.keeps_start d).addRows h
  rw [List.nil_append] at hkeeps
  have haccepted := hkeeps.problems.1 hnone
  have hmem := OrderedMap.mem_entries_of_get? hop
  rw [hkeeps.entries hnone] at hmem
  rw [sizes_eq]
  exact ⟨haccepted.range _ hmem, haccepted.sizes _ hmem⟩

/-! ## Accepted sheets -/

/-- Of every sheet that can be read, the rows with a mnemonic list operations, and there is no
problem just if they are accepted. Then the table holds them in order, and their code bytes of two
digits tell apart both the mnemonics and the addressings. -/
theorem sheet_accepted_iff (d : Dialect) {rows : List SheetRow} {s : Reading}
    (h : read d d.sizes rows = .ok s) :
    ∃ ps, (∀ qs, Lists d rows qs ↔ qs = ps) ∧ (s.problems = [] ↔ Accepted d ps) ∧
      (s.problems = [] → s.table.entries = ps ∧
        (∀ p ∈ ps, ∀ p' ∈ ps, ∀ ops ops', codeByte p.2.opcode ops = codeByte p'.2.opcode ops' →
          p.1 = p'.1 ∧ Addressing.ofOperands ops = Addressing.ofOperands ops') ∧
        ∀ p ∈ ps, ∀ ops, codeByte p.2.opcode ops =
            ((p.2.opcode.toNat <<< 2 ||| (Addressing.ofOperands ops).code.toNat : Nat) : Int) ∧
          ∀ letters, (Text.hex letters 2 (codeByte p.2.opcode ops)).length = 2 ∧
            ∀ c ∈ (Text.hex letters 2 (codeByte p.2.opcode ops)).toList,
            Text.isHexadecimal c = true) := by
  obtain ⟨ps, hlists, hkeeps⟩ := (Reading.keeps_start d).addRows h
  rw [List.nil_append] at hkeeps
  refine ⟨ps, fun qs => ⟨fun hqs => hqs.unique hlists, fun hqs => hqs ▸ hlists⟩, hkeeps.problems,
    fun hnone => ?_⟩
  have haccepted := hkeeps.problems.1 hnone
  refine ⟨hkeeps.entries hnone, fun p hp p' hp' ops ops' hbyte => ?_, fun p hp ops => ?_⟩
  · obtain ⟨hopcode, haddressing⟩ := eq_of_codeByte_eq hbyte
    rw [List.inj_on_of_nodup_map haccepted.codes hp hp' hopcode]
    exact ⟨rfl, haddressing⟩
  · have hrange := haccepted.range p hp
    have hbyte := codeByte_bounds hrange ops
    refine ⟨codeByte_eq_or hrange.1 ops,
      fun letters => ⟨Text.length_hex hbyte.1 (by decide) hbyte.2, ?_⟩⟩
    exact Text.isHexadecimal_hex letters 2 hbyte.1

/-- A sheet with blanks around a mnemonic, a row without one, an empty cell and text behind the
numbers. -/
def looseSheet : List SheetRow :=
  [⟨some " ADD ", some "0x1Fh", some "2"⟩, ⟨some " ", some "?", none⟩,
    ⟨some "JMP", none, some "4 bytes"⟩]

theorem looseSheet_accepted :
    read ⟨.absolute, .twoPass⟩ (Dialect.sizes ⟨.absolute, .twoPass⟩) looseSheet =
      .ok ⟨⟨[("ADD", ⟨31, 2⟩), ("JMP", ⟨0, 4⟩)]⟩, [31, 0], []⟩ ∧
    Lists ⟨.absolute, .twoPass⟩ looseSheet [("ADD", ⟨31, 2⟩), ("JMP", ⟨0, 4⟩)] ∧
    Accepted ⟨.absolute, .twoPass⟩ [("ADD", ⟨31, 2⟩), ("JMP", ⟨0, 4⟩)] := by
  have hread : read ⟨.absolute, .twoPass⟩ (Dialect.sizes ⟨.absolute, .twoPass⟩) looseSheet =
      .ok ⟨⟨[("ADD", ⟨31, 2⟩), ("JMP", ⟨0, 4⟩)]⟩, [31, 0], []⟩ := by rfl
  obtain ⟨ps, hlists, hproblems, htable⟩ := sheet_accepted_iff _ hread
  obtain rfl : _ = ps := (htable rfl).1
  exact ⟨hread, (hlists _).2 rfl, hproblems.1 rfl⟩

end Sheet

end Assembler
