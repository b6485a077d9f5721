import Assembler.Proofs.Displacements
import Assembler.Proofs.FlatStructure

/-! # How wide the code of commands is

The places of a field are a lower bound: a number that does not fit is written all the same.  What
the passes ask of operands keeps every number within its places but for two kinds of operand.  A
character counts as one byte however large its code is, and the distance of a label is not looked
at.  `code_fills_size_iff` says for flat programs that nothing else overflows. -/

namespace Assembler
set_option autoImplicit false

/-- Operands of a command of a size whose digits do not fit the size. -/
inductive Overflows (address? : String → Option Int) (next : Int) : Int → List Operand → Prop
  | character (c : Char) : 0xFF < c.toNat → Overflows address? next 2 [.chars (.singleton c)]
  | distance (x : String) (target : Int) : address? x = some target → 0xFFFF < target - next →
    Overflows address? next 3 [.relative x]

/-! ## Values without a sign -/

theorem Admitted.number_nonneg {size : Int} {ops : List Operand} (h : Admitted size ops) :
    ∀ v, .number v ∈ ops → 0 ≤ v := by
  intro v hv
  cases h with
  | nothing => simp at hv
  | byte w h0 h1 =>
    obtain rfl : v = w := by simpa using hv
    exact h0
  | number w hw =>
    obtain rfl : v = w := by simpa using hv
    exact hw.1
  | character op hop => cases op <;> simp [Operand.isString] at hv hop
  | text op w hop => cases op <;> simp [Operand.isString] at hv hop
  | _ => simp at hv

theorem hexValue_nonneg {ds : List Char} (h : ∀ c ∈ ds, Text.isHexadecimal c = true) {v : Int}
    (hv : hexValue ds = .ok v) :
    0 ≤ v := by
  rw [((hexValue_digits_iff h).1 hv).2]
  exact Int.natCast_nonneg _

theorem Operand.stringValue_nonneg {op : Operand} (h : op.WellWritten) {v : Int}
    (hv : op.stringValue = .ok v) : 0 ≤ v := by
  cases op with
  | chars s => exact hexValue_nonneg (charDigits_isHexadecimal s) hv
  | hex s => exact hexValue_nonneg (h s rfl).2 hv
  | _ => cases hv

section

variable {ρ : String → Option Int} {next : Int}

theorem Operand.value?_nonneg (hρ : ∀ x a, ρ x = some a → InMemory a) {op : Operand}
    (hwritten : op.WellWritten) (hop : ∀ v, op = .number v → 0 ≤ v) {v : Int}
    (h : op.value? (.ofAddresses ρ next) = some v) : 0 ≤ v := by
  by_cases hs : op.isString = true
  · rw [value?_of_isString _ hs] at h
    cases hv : op.stringValue with
    | error x => simp [hv, Except.toOption] at h
    | ok w =>
      obtain rfl : w = v := by simpa [hv, Except.toOption] using h
      exact stringValue_nonneg hwritten hv
  · cases op with
    | direct x => exact (hρ x v h).1
    | relative x =>
      obtain ⟨target, -, rfl⟩ := Option.map_eq_some_iff.1 h
      exact displacement_nonneg target next
    | number w => exact hop v (congrArg Operand.number (Option.some.inj h))
    | register i =>
      obtain rfl : i % 16 = v := Option.some.inj h
      omega
    | chars s => exact absurd rfl hs
    | hex s => exact absurd rfl hs

theorem operandValues?_nonneg (hρ : ∀ x a, ρ x = some a → InMemory a) {ops : List Operand}
    (hwritten : ∀ op ∈ ops, op.WellWritten) (hops : ∀ v, .number v ∈ ops → 0 ≤ v) {vs : List Int}
    (h : operandValues? (.ofAddresses ρ next) ops = some vs) :
    ∀ v ∈ vs, 0 ≤ v := by
  induction ops generalizing vs with
  | nil =>
    obtain rfl : [] = vs := Option.some.inj h
    simp
  | cons op ops ih =>
    obtain ⟨v, hv, hrest⟩ := Option.bind_eq_some_iff.1 h
    obtain ⟨ws, hws, rfl⟩ := Option.map_eq_some_iff.1 hrest
    refine List.forall_mem_cons.2 ⟨?_, ih (fun o ho => hwritten o (List.mem_cons_of_mem _ ho))
      (fun w hw => hops w (List.mem_cons_of_mem _ hw)) hws⟩
    exact Operand.value?_nonneg hρ (hwritten op List.mem_cons_self)
      (fun w hw => hops w (hw ▸ List.mem_cons_self)) hv

theorem FieldWidth.isHexadecimal_digits (w : FieldWidth) {vs : List Int} (h : ∀ v ∈ vs, 0 ≤ v) :
    ∀ c ∈ (w.digits vs).toList, Text.isHexadecimal c = true := by
  induction vs with
  | nil => simp [digits]
  | cons v vs ih =>
    intro c hc
    rw [digits, String.toList_append, List.mem_append] at hc
    cases hc with
    | inl hc =>
      have hv := h v List.mem_cons_self
      cases w with
      | nothing => simp [format] at hc
      | _ => exact Text.isHexadecimal_hex _ _ hv c hc
    | inr hc => exact ih (fun u hu => h u (List.mem_cons_of_mem _ hu)) c hc

/-! ## Places of fields -/

theorem Operand.byte_lt_stringValue_iff {op : Operand} (hsize : op.size ≤ 1) {v : Int}
    (hv : op.stringValue = .ok v) :
    0xFF < v ↔ ∃ c : Char, op = .chars (.singleton c) ∧ 0xFF < c.toNat := by
  cases op with
  | chars s =>
    obtain ⟨hne, rfl⟩ := (hexValue_digits_iff (charDigits_isHexadecimal s)).1 hv
    rcases hs : s.toList with _ | ⟨c, _ | ⟨c', cs⟩⟩
    · simp [charDigits, hs] at hne
    · obtain rfl : s = .singleton c := String.toList_injective (by rw [hs, String.toList_singleton])
      have hvalue : Text.valueOf 16 (charDigits (.singleton c)) = c.toNat := by
        rw [charDigits, hs, List.flatMap_singleton, Text.valueOf_padLeft,
          Text.valueOf_digits .lower (by decide) (by decide)]
      rw [hvalue]
      constructor
      · intro h
        exact ⟨c, rfl, by omega⟩
      · rintro ⟨d, hd, h⟩
        have hd' : [c] = [d] := by simpa using congrArg String.toList (Operand.chars.inj hd)
        obtain rfl := List.singleton_inj.1 hd'
        omega
    · simp [Operand.size, hs] at hsize
  | hex s =>
    have hlength : s.toList.length ≤ 2 := by
      rw [Operand.size] at hsize
      omega
    have hlt := (natAbs_lt_of_hexValue hv).trans_le (Nat.pow_le_pow_right (by decide) hlength)
    refine iff_of_false (by omega) ?_
    rintro ⟨c, hc, -⟩
    cases hc
  | _ => cases hv

/-- The value of one character, or of at most two that make a literal, takes two places unless it is
too large. -/
theorem Operand.length_hex_stringValue_iff {op : Operand} (hsize : op.size ≤ 1) {v : Int}
    (hv : op.stringValue = .ok v) :
    (Text.hex .lower 2 v).length = 2 ↔ v < 16 ^ 2 := by
  by_cases hnonneg : 0 ≤ v
  · exact Text.length_hex_eq_iff hnonneg (by decide)
  · cases op with
    | chars s => exact absurd (hexValue_nonneg (charDigits_isHexadecimal s) hv) hnonneg
    | hex s =>
      have hlength : s.toList.length - 1 ≤ 1 := by
        rw [Operand.size] at hsize
        omega
      have hbound := (Text.hexLiteral?_bounds (hexValue_eq_ok_iff.1 hv)).1
      have hpow : 16 ^ (s.toList.length - 1) ≤ 16 ^ 1 := Nat.pow_le_pow_right (by decide) hlength
      exact iff_of_true (Text.length_hex_of_neg .lower (by omega) (by decide) (by omega)) (by omega)
    | _ => cases hv

theorem InMemory.length_hex {v : Int} (h : InMemory v) (letters : Text.LetterCase) :
    (Text.hex letters 6 v).length = 6 := by
  have hle := h.2
  unfold lastAddress at hle
  exact Text.length_hex h.1 (by decide) (by omega)

theorem overflows_string_iff {op : Operand} (hsize : op.size ≤ 1) {v : Int}
    (hv : op.stringValue = .ok v) :
    Overflows ρ next 2 [op] ↔ 0xFF < v := by
  rw [Operand.byte_lt_stringValue_iff hsize hv]
  constructor
  · rintro ⟨c, hc⟩
    exact ⟨c, rfl, hc⟩
  · rintro ⟨c, rfl, hc⟩
    exact .character c hc

theorem overflows_relative_iff {x : String} {target : Int} (hx : ρ x = some target) :
    Overflows ρ next 3 [.relative x] ↔ 0xFFFF < target - next := by
  constructor
  · intro h
    cases h with
    | distance x' target' hx' hfar =>
      obtain rfl : target' = target := Option.some.inj (hx'.symm.trans hx)
      exact hfar
  · exact .distance x target hx

/-- The digits of admitted operands fill the size of the command with its code byte, if and only if
they do not overflow. -/
theorem Admitted.length_digits_iff (hρ : ∀ x a, ρ x = some a → InMemory a) {size : Int}
    {ops : List Operand} (h : Admitted size ops) {ds : String}
    (hds : operandDigits? (.ofAddresses ρ next) size ops = some ds) :
    (2 + ds.length : Int) = 2 * size ↔ ¬ Overflows ρ next size ops := by
  have hnibble : ∀ i : Int, (Text.hex .lower 1 (i % 16)).length = 1 := by
    intro i
    exact Text.length_hex (by omega) (by decide) (by omega)
  cases h with
  | nothing =>
    obtain rfl : "" = ds := Option.some.inj hds
    apply iff_of_true rfl
    intro hover
    cases hover
  | byte v h0 h1 =>
    rw [operandDigits?_singleton] at hds
    obtain rfl : Text.hex .lower 2 v = ds := Option.some.inj hds
    rw [Text.length_hex h0 (by decide) (by omega)]
    apply iff_of_true rfl
    intro hover
    cases hover
  | registers i j =>
    obtain rfl : Text.hex .lower 1 (i % 16) ++ (Text.hex .lower 1 (j % 16) ++ "") = ds :=
      Option.some.inj hds
    rw [String.length_append, String.length_append, hnibble, hnibble]
    apply iff_of_true rfl
    intro hover
    cases hover
  | character op hop hle =>
    rw [operandDigits?_singleton, Operand.value?_of_isString _ hop] at hds
    cases hv : op.stringValue with
    | error x => simp [hv, Except.toOption] at hds
    | ok v =>
      rw [hv] at hds
      obtain rfl : Text.hex .lower 2 v = ds := Option.some.inj hds
      have hplaces := Operand.length_hex_stringValue_iff hle hv
      rw [overflows_string_iff hle hv]
      omega
  | distance x =>
    rw [operandDigits?_relative] at hds
    obtain ⟨w, hw, rfl⟩ := Option.map_eq_some_iff.1 hds
    obtain ⟨target, hx, rfl⟩ := Option.map_eq_some_iff.1 hw
    have hplaces := length_displacement target next
    rw [overflows_relative_iff hx]
    omega
  | address x =>
    rw [operandDigits?_direct] at hds
    obtain ⟨a, ha, rfl⟩ := Option.map_eq_some_iff.1 hds
    rw [Text.address, (hρ x a ha).length_hex]
    apply iff_of_true rfl
    intro hover
    cases hover
  | number v hv =>
    rw [operandDigits?_singleton] at hds
    obtain rfl : Text.hex .upper 6 v = ds := Option.some.inj hds
    rw [hv.length_hex]
    apply iff_of_true rfl
    intro hover
    cases hover
  | text op v hop hv hmem =>
    rw [operandDigits?_singleton, Operand.value?_of_isString _ hop, hv] at hds
    obtain rfl : Text.hex .upper 6 v = ds := Option.some.inj hds
    rw [hmem.length_hex]
    apply iff_of_true rfl
    intro hover
    cases hover

end

theorem Addressing.code_bounds (a : Addressing) : 0 ≤ a.code ∧ a.code ≤ 3 := by
  cases a <;> decide

/-- An operation code of six bits makes a code byte. -/
theorem codeByte_bounds {opcode : Int} (h : 0 ≤ opcode ∧ opcode ≤ 63) (ops : List Operand) :
    0 ≤ codeByte opcode ops ∧ codeByte opcode ops < 16 ^ 2 := by
  have hcode := (Addressing.ofOperands ops).code_bounds
  unfold codeByte
  omega

/-! ## Commands of flat programs -/

section

variable {layout : Layout} {table : OpTable} {use : NameUse} {first last : Line} {body : List Line}

theorem FlatProgram.inMemory_label (h : FlatProgram layout table use first body last)
    (ht : table.Sized layout) {x : String} {a : Int}
    (hx : flatLabels layout table first body last x = some a) : InMemory a := by
  rw [flatLabels, ← addressOf_concat ((flatRows layout table first body).map (·.1))
    ⟨flatEnd layout table first body, last, none⟩] at hx
  obtain ⟨q, hq, -, rfl⟩ := exists_of_addressOf hx
  cases List.mem_append.1 hq with
  | inl hq =>
    obtain ⟨p, hp, rfl⟩ := List.mem_map.1 hq
    obtain ⟨-, -, hload, hsize, hend⟩ := h.bounds ht hp
    have hstart := h.load.1
    exact ⟨by omega, by omega⟩
  | inr hq =>
    rw [List.mem_singleton.1 hq]
    exact h.finish_inMemory

/-- The row has a mnemonic of the table. -/
def Row.isCommand (table : OpTable) (r : Row) : Bool := (table.get? r.line.mnemonic).isSome

theorem isCode_recordOf (hav : table.Avoids flatDirectives) {p : Row × Int}
    (hfit : p.1.line.Fits layout table use p.1.address) (field : String) :
    (recordOf layout table p field).isCode = p.1.isCommand table := by
  unfold recordOf Row.isCommand
  cases hfit.cases with
  | inl h =>
    obtain ⟨kind, al, hkind, -⟩ := h
    simp only [hkind, get?_of_storage hav hkind]
    cases kind.digits? p.1.line.operands <;> rfl
  | inr h =>
    obtain ⟨op, hop, -⟩ := h
    simp only [hop, (Statement.stands_of_eq hop).1]
    rfl

theorem exists_code_of_resolved (hav : table.Avoids flatDirectives)
    (h : FlatProgram layout table use first body last)
    (hres : Resolved layout table first body last) {p : Row × Int}
    (hp : p ∈ flatRows layout table first body) (hcommand : p.1.isCommand table = true) :
    ∃ op field, Statement.ofMnemonic layout table p.1.line.mnemonic = .command op ∧
      operandDigits?
        (.ofAddresses (flatLabels layout table first body last) (p.1.address + op.size)) op.size
          p.1.line.operands = some field ∧
      recordOf layout table p
        ((fieldOf layout table (flatLabels layout table first body last) p).getD "") =
          .code p.1.address op.size (codeByte op.opcode p.1.line.operands) field := by
  obtain ⟨field, hfield⟩ := Option.isSome_iff_exists.1 (hres.fields p hp)
  cases (h.body_fits.fits p hp).cases with
  | inl hs =>
    obtain ⟨kind, al, hkind, -⟩ := hs
    rw [Row.isCommand, get?_of_storage hav hkind] at hcommand
    cases hcommand
  | inr hc =>
    obtain ⟨op, hop, -⟩ := hc
    have hsize :
        p.2 = op.size := by rw [snd_of_mem_placed layout table none hp, extent_of_command hop]
    refine ⟨op, field, hop, ?_, ?_⟩
    · simpa only [fieldOf, hop] using hfield
    · simp only [hfield, recordOf, hop, hsize, Option.getD_some]

theorem commands_listedRows (hav : table.Avoids flatDirectives)
    (h : FlatProgram layout table use first body last) :
    (TwoPass.Flat.listedRows layout table first body last).filter (·.isCommand table) =
      ((flatRows layout table first body).filter fun p => p.1.isCommand table).map (·.1) := by
  have hfirst : table.get? first.mnemonic = none := hav _ (by rw [h.start]; decide)
  have hlast : table.get? last.mnemonic = none := hav _ (by rw [h.finish]; decide)
  rw [TwoPass.Flat.listedRows, List.filter_cons_of_neg (by simp [Row.isCommand, hfirst]),
    List.filter_append, List.filter_map, List.filter_cons_of_neg (by simp [Row.isCommand, hlast]),
    List.filter_nil, List.append_nil]
  rfl

theorem codes_flatRecords (hav : table.Avoids flatDirectives)
    (h : FlatProgram layout table use first body last) :
    (flatRecords layout table first body last).filter ObjectRecord.isCode =
      ((flatRows layout table first body).filter fun p => p.1.isCommand table).map fun p =>
        recordOf layout table p
          ((fieldOf layout table (flatLabels layout table first body last) p).getD "") := by
  have hmodified :
      ∀ as : List Int, (as.map (ObjectRecord.modification · none)).filter ObjectRecord.isCode =
        [] := by
    simp [ObjectRecord.isCode]
  have hrows : (flatRows layout table first body).filter (ObjectRecord.isCode ∘ fun p =>
      recordOf layout table p
        ((fieldOf layout table (flatLabels layout table first body last) p).getD "")) =
      (flatRows layout table first body).filter fun p => p.1.isCommand table := by
    apply List.filter_congr
    intro p hp
    exact isCode_recordOf hav (h.body_fits.fits p hp) _
  rw [flatRecords, List.filter_append, List.filter_append, hmodified,
    List.filter_cons_of_neg (by simp [ObjectRecord.isCode]), List.filter_map, hrows]
  simp [ObjectRecord.isCode]

end

/-- In a flat program that two passes accept, the records of code are those of the rows with a
mnemonic of the table.  The digits of each are hexadecimal if the line is well written, as every
line of a source text is, and they are two for each byte of the command if and only if its operands
do not overflow: a command of two bytes with a character beyond FF (hexadecimal), or one of three
bytes with a label more than FFFF behind the next row. -/
theorem code_fills_size_iff (layout : Layout) (hl : layout ≠ .sectioned) (table : OpTable)
    (ht : table.Sized layout) (hav : table.Avoids flatDirectives)
    (hopcodes : ∀ m op, table.get? m = some op → 0 ≤ op.opcode ∧ op.opcode ≤ 63) (i : Int)
    (program : List Line) (rows : List Row) (symbols : Symbols) (records : List ObjectRecord)
      (written : List Modification)
        (h : assembleTwice ⟨layout, .twoPass⟩ table (.ofIndex i) program =
          .ok (.listed rows symbols, some (.ok (.made records written)))) :
    List.Forall₂ (fun r o => ∃ op code, table.get? r.line.mnemonic = some op ∧
        o.text (Dialect.codeStyle ⟨layout, .twoPass⟩) =
          "T " ++ Text.address r.address ++ " " ++ Text.decimal op.size ++ " " ++ code ∧
        (r.line.WellWritten → ∀ c ∈ code.toList, Text.isHexadecimal c = true) ∧
        ((code.length : Int) = 2 * op.size ↔
          ¬ Overflows (symbols.address? none) (r.address + op.size) op.size r.line.operands))
      (rows.filter (·.isCommand table)) (records.filter ObjectRecord.isCode) := by
  obtain ⟨first, body, last, rest, -, hprog, hres, rfl, rfl, rfl, -⟩ :=
    (assembleTwice_made_iff hl ht hav _ _ _ _ _ _).1 h
  rw [commands_listedRows hav hprog, codes_flatRecords hav hprog, List.forall₂_map_left_iff,
    List.forall₂_map_right_iff, List.forall₂_same]
  intro p hp
  obtain ⟨hp, hcommand⟩ := List.mem_filter.1 hp
  have hstyle : Dialect.codeStyle ⟨layout, .twoPass⟩ = .flat := by
    cases layout with
    | sectioned => exact absurd rfl hl
    | _ => rfl
  have haddress :
      Symbols.address?
        (.flat ((TwoPass.Flat.listedNames layout table first body last).mapValues some)) none =
      flatLabels layout table first body last :=
        funext (TwoPass.Flat.join_get?_listedNames layout table first body last)
  obtain ⟨op, field, hop, hfield, hrecord⟩ := exists_code_of_resolved hav hprog hres hp hcommand
  have hget := (Statement.stands_of_eq hop).1
  have hadmitted := (hprog.body_fits.fits p hp).admitted ht hop
  have hlabels := fun x a => hprog.inMemory_label ht (x := x) (a := a)
  have hbyte := codeByte_bounds (hopcodes _ op hget) p.1.line.operands
  refine ⟨op, Text.hex .lower 2 (codeByte op.opcode p.1.line.operands) ++ field, hget, ?_, ?_, ?_⟩
  · rw [hrecord, hstyle]
    simp only [ObjectRecord.text, String.append_assoc]
    rfl
  · intro hwritten c hc
    rw [String.toList_append, List.mem_append] at hc
    cases hc with
    | inl hc => exact Text.isHexadecimal_hex .lower 2 hbyte.1 c hc
    | inr hc =>
      obtain ⟨vs, hvs, rfl⟩ := Option.map_eq_some_iff.1 hfield
      exact FieldWidth.isHexadecimal_digits _
        (operandValues?_nonneg hlabels hwritten hadmitted.number_nonneg hvs) c hc
  · rw [haddress, String.length_append, Text.length_hex hbyte.1 (by decide) hbyte.2, Nat.cast_add]
    exact hadmitted.length_digits_iff hlabels hfield

/-- Operations of two, three and four bytes. -/
def wideOperations : OpTable := .ofTriples [("ADD", 3, 2), ("JMP", 1, 3), ("LDA", 63, 4)]

/-- A character beyond a byte, a label beyond sixteen bits, and the address of this label. -/
def wideCommands : List Line :=
  [⟨some "P", ⟨"START", []⟩⟩, ⟨none, ⟨"ADD", [.chars "Ā"]⟩⟩, ⟨none, ⟨"JMP", [.relative "X"]⟩⟩,
    ⟨none, ⟨"LDA", [.direct "X"]⟩⟩, ⟨none, ⟨"RESB", [.number 0x10000]⟩⟩, ⟨some "X", ⟨"END", []⟩⟩]

/-- The first two commands overflow, the third does not. -/
theorem wideCommands_overflow :
    wideOperations.Sized .relocatable ∧ wideOperations.Avoids flatDirectives ∧
      (∀ m op, wideOperations.get? m = some op → 0 ≤ op.opcode ∧ op.opcode ≤ 63) ∧
      ∃ rows symbols records written,
        assembleTwice ⟨.relocatable, .twoPass⟩ wideOperations (.ofIndex 2) wideCommands =
          .ok (.listed rows symbols, some (.ok (.made records written))) ∧
        ∃ add jmp lda, (records.filter ObjectRecord.isCode).map (·.text .flat) =
            ["T 000000 2 " ++ add, "T 000002 3 " ++ jmp, "T 000005 4 " ++ lda] ∧
          add.length ≠ 4 ∧ jmp.length ≠ 6 ∧ lda.length = 8 := by
  have ht : wideOperations.Sized .relocatable := OpTable.sized_of_forall (by decide +kernel)
  have hav : wideOperations.Avoids flatDirectives := by unfold OpTable.Avoids; decide +kernel
  have hopcodes : ∀ m op, wideOperations.get? m = some op → 0 ≤ op.opcode ∧ op.opcode ≤ 63 := by
    have hall : ∀ e ∈ wideOperations.entries, 0 ≤ e.2.opcode ∧ e.2.opcode ≤ 63 := by decide +kernel
    exact fun m op hop => hall (m, op) (OrderedMap.mem_entries_of_get? hop)
  obtain ⟨rows, symbols, records, written, h, hrows, hsymbols⟩ : ∃ rows symbols records written,
      assembleTwice ⟨.relocatable, .twoPass⟩ wideOperations (.ofIndex 2) wideCommands =
        .ok (.listed rows symbols, some (.ok (.made records written))) ∧
      rows.filter (·.isCommand wideOperations) = [⟨0, ⟨none, ⟨"ADD", [.chars "Ā"]⟩⟩, none⟩,
        ⟨2, ⟨none, ⟨"JMP", [.relative "X"]⟩⟩, none⟩, ⟨5, ⟨none, ⟨"LDA", [.direct "X"]⟩⟩, none⟩] ∧
      symbols.address? none "X" = some 0x10009 := ⟨_, _, _, _, rfl, rfl, rfl⟩
  have hall :=
    code_fills_size_iff .relocatable (by decide) _ ht hav hopcodes 2 wideCommands rows symbols
      records written h
  rw [hrows] at hall
  obtain ⟨o₁, os₁, ⟨op₁, add, hop₁, htext₁, -, hadd⟩, hall₁, hrecords⟩ :=
    List.forall₂_cons_left_iff.1 hall
  obtain ⟨o₂, os₂, ⟨op₂, jmp, hop₂, htext₂, -, hjmp⟩, hall₂, rfl⟩ :=
    List.forall₂_cons_left_iff.1 hall₁
  obtain ⟨o₃, os₃, ⟨op₃, lda, hop₃, htext₃, -, hlda⟩, hnil, rfl⟩ :=
    List.forall₂_cons_left_iff.1 hall₂
  cases hnil
  obtain rfl : op₁ = ⟨3, 2⟩ := (Option.some.inj hop₁).symm
  obtain rfl : op₂ = ⟨1, 3⟩ := (Option.some.inj hop₂).symm
  obtain rfl : op₃ = ⟨63, 4⟩ := (Option.some.inj hop₃).symm
  refine ⟨ht, hav, hopcodes, rows, symbols, records, written, h, add, jmp, lda, ?_, ?_, ?_, ?_⟩
  · rw [hrecords, List.map_cons, List.map_cons, List.map_cons, List.map_nil]
    exact congrArg₂ _ htext₁ (congrArg₂ _ htext₂ (congrArg (· :: []) htext₃))
  · intro hlength
    exact hadd.1 (congrArg Nat.cast hlength) (.character 'Ā' (by decide))
  · intro hlength
    exact hjmp.1 (congrArg Nat.cast hlength) (.distance "X" _ hsymbols (by decide))
  · have hfits := hlda.2 (fun hover => by cases hover)
    exact Int.ofNat.inj hfits

end Assembler
