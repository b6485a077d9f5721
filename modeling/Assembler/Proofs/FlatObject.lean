import Assembler.Proofs.FlatListing
import Assembler.Assembly

/-! # The object code of flat programs

Each line of the body gives one record (`recordOf`), whose field has the digits of the operands as
read from all labels of the program.  Two passes make object code of exactly the programs that
nothing is wrong with and in which every operand has digits and the entry address is one of the
program's (`assembleTwice_made_iff`). -/

namespace Assembler
set_option autoImplicit false

/-! ## Records of placed lines -/

/-- The digits of the operands of a placed line, read from known labels; only commands have any. -/
def fieldOf (layout : Layout) (table : OpTable) (ρ : String → Option Int) (p : Row × Int) :
    Option String :=
  match Statement.ofMnemonic layout table p.1.line.mnemonic with
  | .command op => operandDigits? (.ofAddresses ρ (p.1.address + op.size)) op.size p.1.line.operands
  | _ => some ""

def storageRecord (a size : Int) : Option String → ObjectRecord
  | some ds => .data a size ds
  | none => .space a size

/-- The record of a placed line with a given field. -/
def recordOf (layout : Layout) (table : OpTable) (p : Row × Int) (field : String) : ObjectRecord :=
  match Statement.ofMnemonic layout table p.1.line.mnemonic with
  | .command op => .code p.1.address p.2 (codeByte op.opcode p.1.line.operands) field
  | .storage kind => storageRecord p.1.address p.2 (kind.digits? p.1.line.operands)
  | _ => .space p.1.address p.2

/-- The addresses of the commands with direct names, which are modified in relocatable programs. -/
def modifiedIn (layout : Layout) (table : OpTable) (p : Row × Int) : List Int :=
  match Statement.ofMnemonic layout table p.1.line.mnemonic with
  | .command _ =>
    if layout == .relocatable && Addressing.ofOperands p.1.line.operands == .direct
      then [p.1.address] else []
  | _ => []

/-- The entry address of a flat program. -/
def flatEntry (layout : Layout) (first last : Line) : Int :=
  (onlyNumber? last.operands).getD (layout.load first)

/-- The addresses of the lines of a flat program. -/
def flatAddresses (layout : Layout) (table : OpTable) (first : Line) (body : List Line) :
    List Int :=
  layout.load first :: (flatRows layout table first body).map fun p => p.1.address + p.2

/-- Every operand of a flat program has digits, and the program is entered at one of its
addresses. -/
structure Resolved (layout : Layout) (table : OpTable) (first : Line) (body : List Line)
    (last : Line) : Prop where
  fields : ∀ p ∈ flatRows layout table first body,
    (fieldOf layout table (flatLabels layout table first body last) p).isSome = true
  entry : flatEntry layout first last ∈ flatAddresses layout table first body

/-- The object code of a flat program. -/
def flatRecords (layout : Layout) (table : OpTable) (first : Line) (body : List Line)
    (last : Line) : List ObjectRecord :=
  let rows := flatRows layout table first body
  let ρ := flatLabels layout table first body last
  .header first.label (layout.load first)
    (some (flatEnd layout table first body - layout.load first)) ::
      (rows.map fun p => recordOf layout table p ((fieldOf layout table ρ p).getD "")) ++
    (rows.flatMap (modifiedIn layout table)).map (.modification · none) ++
      [.finish (flatEntry layout first last)]

section

variable {layout : Layout} {table : OpTable}

namespace TwoPass.FlatCode

variable {use : NameUse} {names : OrderedMap String Int} {e e' : Emission} {p : Row × Int}
  {moved : Bool}

/-- The directory that the first pass leaves. -/
def directory (names : OrderedMap String Int) : Directory :=
  .ofSymbols (.flat (names.mapValues some))

/-- What has been made after the record of a line with a field. -/
def Emission.push (layout : Layout) (table : OpTable) (e : Emission) (p : Row × Int)
    (field : String) : Emission where
  records := e.records ++ [recordOf layout table p field]
  modified := e.modified ++ modifiedIn layout table p
  found := e.found

theorem addStorage_of_storage {kind : Storage} {al : Allotment}
    (hm : p.1.line.mnemonic = kind.mnemonic)
    (hal : kind.allot p.1.address p.1.line.operands = .ok al) (hp : Text.hasDecimal p.2 = true) :
    addStorage p.1 p.2 e = .ok { e with records := e.records ++
      [storageRecord p.1.address p.2 (kind.digits? p.1.line.operands)] } := by
  have hr : storageRecord? p.1 p.2 =
      some (storageRecord p.1.address p.2 (kind.digits? p.1.line.operands)) := by
    unfold Storage.allot at hal
    split at hal <;> cases hal
    all_goals
      next h =>
        simp [storageRecord?, hm, h, Storage.mnemonic, Storage.digits?, storageRecord, wordDigits?,
          byteDigits?,
        Field.shown]
  simp [addStorage, hr, hp]

theorem addStorage_of_not_storage (hm : p.1.line.mnemonic ∉ flatDirectives) :
    addStorage p.1 p.2 e = .ok e := by
  simp [flatDirectives] at hm
  simp [addStorage, storageRecord?, hm]

theorem addSizedCommand_clean_iff (hl : layout ≠ .sectioned)
    (hpl : (layout == .relocatable && moved) = false) {op : Operation}
    (hop : Statement.ofMnemonic layout table p.1.line.mnemonic = .command op)
    (hadm : Admitted op.size p.1.line.operands) (hs : p.2 = op.size) :
    (addSizedCommand ⟨layout, .twoPass⟩ (directory names) moved op p.1 p.2 e = .ok e' ∧
      e'.found = []) ↔
      e.found = [] ∧ ∃ f, fieldOf layout table names.get? p = some f ∧
      e' = e.push layout table p f := by
  have hscope : Scope.ofDialect ⟨layout, .twoPass⟩ (directory names) none (p.1.address + p.2) =
      Scope.flat ⟨layout, .twoPass⟩ (directory names) (p.1.address + p.2) := by
    cases layout <;> first | rfl | exact absurd rfl hl
  have hk := Scope.flat_knows ⟨layout, .twoPass⟩ names (p.1.address + p.2)
  have hfield : fieldOf layout table names.get? p =
      operandDigits? (.ofAddresses names.get? (p.1.address + p.2)) op.size p.1.line.operands := by
    simp [fieldOf, hop, hs]
  unfold addSizedCommand
  simp only [hscope, hfield]
  cases hd :
    operandDigits? (.ofAddresses names.get? (p.1.address + p.2)) op.size p.1.line.operands with
  | none =>
    obtain ⟨x, hx⟩ := Field.ofOperands_error ⟨layout, .twoPass⟩ hk hd
    rw [directory, hx]
    simp only [reduceCtorEq, false_and, exists_false, and_false, iff_false, not_and]
    cases x with
    | undefinedName d use name =>
      intro h
      cases h
      simp
    | _ => intro h; cases h
  | some ds =>
    rw [directory, Field.ofOperands_admitted ⟨layout, .twoPass⟩ hk hadm hd]
    simp only [Emission.push, recordOf, modifiedIn, hop, Field.shown, Option.getD_some, hpl,
      Bool.false_and, if_false, List.append_nil, Option.some.injEq, exists_eq_left',
      Except.ok.injEq, Bool.false_eq_true]
    constructor
    · rintro ⟨rfl, hf⟩
      exact ⟨hf, rfl⟩
    · rintro ⟨hf, rfl⟩
      exact ⟨rfl, hf⟩

theorem addRow_clean_iff (hl : layout ≠ .sectioned)
    (hpl : (layout == .relocatable && moved) = false) (ht : table.Sized layout)
    (hav : table.Avoids flatDirectives) (hfit : p.1.line.Fits layout table use p.1.address)
    (hp : Text.hasDecimal p.2 = true) (hs : p.2 = p.1.line.extent layout table) :
    (addRow ⟨layout, .twoPass⟩ (directory names) table moved e p = .ok e' ∧ e'.found = []) ↔
      e.found = [] ∧ ∃ f, fieldOf layout table names.get? p = some f ∧
      e' = e.push layout table p f := by
  obtain ⟨hstart, hend⟩ := hfit.not_frame
  have hframe : ¬ (p.1.line.mnemonic = "START" ∨ p.1.line.mnemonic = "END") := by
    simp [hstart, hend]
  unfold addRow
  simp only [hframe, if_false]
  rcases hfit.cases with ⟨kind, al, hk, hal, -⟩ | ⟨op, hop, -⟩
  · have hm : p.1.line.mnemonic = kind.mnemonic := Statement.stands_of_eq hk
    have hnone : table.get? p.1.line.mnemonic = none := hav _ (by rw [hm]; cases kind <;> decide)
    rw [addStorage_of_storage hm hal hp]
    simp only [hnone, fieldOf, hk, Emission.push, recordOf, modifiedIn, Except.ok.injEq,
      Option.some.injEq, List.append_nil, exists_eq_left']
    constructor
    · rintro ⟨rfl, hf⟩
      exact ⟨hf, rfl⟩
    · rintro ⟨hf, rfl⟩
      exact ⟨rfl, hf⟩
  · obtain ⟨hget, hdir, -⟩ := Statement.stands_of_eq hop
    rw [addStorage_of_not_storage hdir]
    simp only [hget, addCommand, hp, if_true]
    rw [extent_of_command hop] at hs
    exact addSizedCommand_clean_iff hl hpl hop (hfit.admitted ht hop) hs

theorem addRows_clean_iff (hl : layout ≠ .sectioned)
    (hpl : (layout == .relocatable && moved) = false) (ht : table.Sized layout)
    (hav : table.Avoids flatDirectives) {ps : List (Row × Int)}
    (hfit : ∀ p ∈ ps, p.1.line.Fits layout table use p.1.address ∧ Text.hasDecimal p.2 = true ∧
      p.2 = p.1.line.extent layout table) :
    (addRows ⟨layout, .twoPass⟩ (directory names) table moved e ps = .ok e' ∧ e'.found = []) ↔
      e.found = [] ∧ (∀ p ∈ ps, (fieldOf layout table names.get? p).isSome = true) ∧
        e' = { records := e.records ++ ps.map fun p =>
          recordOf layout table p ((fieldOf layout table names.get? p).getD "")
               modified := e.modified ++ ps.flatMap (modifiedIn layout table)
               found := [] } := by
  induction ps generalizing e with
  | nil =>
    simp only [addRows, Except.ok.injEq, List.not_mem_nil, List.map_nil, List.flatMap_nil,
      List.append_nil]
    constructor
    · rintro ⟨rfl, hf⟩
      exact ⟨hf, by simp, by rw [← hf]⟩
    · rintro ⟨hf, -, rfl⟩
      exact ⟨by rw [← hf], rfl⟩
  | cons p ps ih =>
    obtain ⟨hp, hdec, hext⟩ := hfit p List.mem_cons_self
    have ih := fun e₁ : Emission => @ih e₁ fun q hq => hfit q (List.mem_cons_of_mem _ hq)
    have hrow :
        ∀ e₁, (addRow ⟨layout, .twoPass⟩ (directory names) table moved e p = .ok e₁ ∧
          e₁.found = []) ↔ _ :=
      fun e₁ => addRow_clean_iff hl hpl ht hav hp hdec hext
    rw [addRows]
    constructor
    · rintro ⟨h, hf⟩
      cases hr : addRow ⟨layout, .twoPass⟩ (directory names) table moved e p with
      | error x => simp [hr] at h
      | ok e₁ =>
        simp only [hr] at h
        obtain ⟨hf₁, hall, rfl⟩ := (ih e₁).1 ⟨h, hf⟩
        obtain ⟨he, f, hfield, rfl⟩ := (hrow e₁).1 ⟨hr, hf₁⟩
        refine ⟨he, ?_, ?_⟩
        · simpa [hfield] using hall
        · simp [Emission.push, hfield]
    · rintro ⟨he, hall, rfl⟩
      obtain ⟨f, hfield⟩ := Option.isSome_iff_exists.1 (hall p List.mem_cons_self)
      obtain ⟨hr, hf₁⟩ := (hrow _).2 ⟨he, f, hfield, rfl⟩
      rw [hr]
      refine (ih _).2 ⟨hf₁, fun q hq => hall q (List.mem_cons_of_mem _ hq), ?_⟩
      simp [Emission.push, hfield]

theorem addRows_frame (d : Dialect) (dir : Directory) (table : OpTable) (placed : Bool)
    (e : Emission) {first last : Row × Int} (hfirst : first.1.line.mnemonic = "START")
    (hlast : last.1.line.mnemonic = "END") (ps : List (Row × Int)) :
    addRows d dir table placed e (first :: (ps ++ [last])) = addRows d dir table placed e ps := by
  have hend :
      ∀ e, addRows d dir table placed e (ps ++ [last]) = addRows d dir table placed e ps := by
    induction ps with
    | nil => intro e; simp [addRows, addRow, hlast]
    | cons p ps ih =>
      intro e
      rw [List.cons_append, addRows, addRows]
      cases addRow d dir table placed e p with
      | error x => rfl
      | ok e' => exact ih e'
  rw [addRows, addRow, if_pos (.inl hfirst)]
  exact hend e

theorem entryPoint_eq {first last : Row} (h : isOptionalNumber last.line.operands = true) :
    entryPoint first last = ((onlyNumber? last.line.operands).getD first.address, []) := by
  unfold entryPoint onlyNumber?
  unfold isOptionalNumber at h
  split at h <;> simp_all

theorem mem_addresses_iff (layout : Layout) (table : OpTable) (sec : Option String) (a x : Int)
    (ls : List Line) :
    (x ∈ (placed layout table sec a ls).map (·.1.address) ∨ x = a + extentOf layout table ls) ↔
      x = a ∨ x ∈ (placed layout table sec a ls).map fun p => p.1.address + p.2 := by
  induction ls generalizing a with
  | nil => simp [placed, extentOf]
  | cons l ls ih =>
    have e : a + extentOf layout table (l :: ls) = a + l.extent layout table +
        extentOf layout table ls := by
      rw [extentOf]; omega
    rw [e, placed]
    simp only [List.map_cons, List.mem_cons, or_assoc]
    rw [ih]

theorem sizedRows_cons (r : Row) {rs : List Row} (h : rs ≠ []) :
    ∃ n, sizedRows (r :: rs) = (r, n) :: sizedRows rs := by
  cases rs with
  | nil => exact absurd rfl h
  | cons r' rs => exact ⟨_, rfl⟩

theorem sizedRows_listedRows (layout : Layout) (table : OpTable) (first : Line) (body : List Line)
    (last : Line) :
    ∃ n m, sizedRows (Flat.listedRows layout table first body last) =
      (⟨layout.load first, first, none⟩, n) :: (flatRows layout table first body ++
        [(⟨flatEnd layout table first body, last, none⟩, m)]) := by
  have h := sizedRows_placed layout table none (layout.load first) body
    ⟨flatEnd layout table first body, last, none⟩ [] rfl
  have hne :
      (flatRows layout table first body).map (·.1) ++
        [⟨flatEnd layout table first body, last, none⟩] ≠ [] := by simp
  obtain ⟨n, hn⟩ := sizedRows_cons ⟨layout.load first, first, none⟩ hne
  exact ⟨n, _, by rw [Flat.listedRows, hn, flatRows, h]; rfl⟩

theorem load_eq_zero {first : Line} (hl : layout ≠ .absolute)
    (h : layout.loadProblems (layout.load first) = []) :
    layout.load first = 0 := by
  cases layout with
  | absolute => exact absurd rfl hl
  | _ => simpa [Layout.loadProblems] using h

theorem between_eq_made_iff (d : Dialect) (dir : Directory) (table : OpTable) (rows : List Row)
    (first last : Row) (records : List ObjectRecord) (written : List Modification) :
    between d dir table rows first last = .ok (.made records written) ↔
      ∃ e, addRows d dir table (first.address != 0) ⟨[], [], []⟩ (sizedRows rows) = .ok e ∧
      e.found = [] ∧
        endProblems rows first last = [] ∧ written = [] ∧
        records = .header first.line.label first.address (some (last.address - first.address)) ::
          e.records ++ e.modified.map (.modification · none) ++
            [.finish (entryPoint first last).1] := by
  rw [between, map_eq_ok_iff]
  refine exists_congr fun e => and_congr_right fun _ => ?_
  unfold ObjectProgram.unlessFound
  split
  · next h => 
    simp only [List.isEmpty_iff, List.append_eq_nil_iff, Site.report_eq_nil_iff] at h
    simp [h, eq_comm, and_comm]
  · next h =>
    simp only [List.isEmpty_iff, List.append_eq_nil_iff, Site.report_eq_nil_iff] at h
    simp only [reduceCtorEq, false_iff]
    rintro ⟨hf, hend, -⟩
    exact h ⟨hf, hend⟩

/-- The addresses of a flat program are those of its rows. -/
theorem mem_flatAddresses_iff {first : Line} {body : List Line} {a : Int} (last : Line) :
    a ∈ flatAddresses layout table first body ↔ ∃ r ∈ Flat.listedRows layout table first body last,
      r.address = a := by
  have hmem := mem_addresses_iff layout table none (layout.load first) a body
  rw [← List.mem_map, flatAddresses, List.mem_cons, flatRows, ← hmem, Flat.listedRows]
  simp only [List.map_cons, List.map_append, List.map_map, List.mem_cons, List.mem_append,
    List.map_nil]
  constructor
  · rintro (h | h)
    · exact .inr (.inl h)
    · exact .inr (.inr (.inl h))
  · rintro (h | h | h | h)
    · exact hmem.2 (.inl h)
    · exact .inl h
    · exact .inr h
    · cases h

theorem endProblems_listedRows_iff {first : Line} {body : List Line} {last : Line}
    (h : isOptionalNumber last.operands = true) :
    endProblems (Flat.listedRows layout table first body last) ⟨layout.load first, first, none⟩
        ⟨flatEnd layout table first body, last, none⟩ = [] ↔
      flatEntry layout first last ∈ flatAddresses layout table first body := by
  rw [endProblems, entryPoint_eq h, List.nil_append, mem_flatAddresses_iff last]
  simp only [ite_eq_left_iff, reduceCtorEq, imp_false, Classical.not_not, List.any_eq_true,
    beq_iff_eq]
  rfl

/-- The second pass makes object code of what the first one lists if and only if every operand has
digits and the entry address is one of the program's. -/
theorem make_eq_made_iff (hl : layout ≠ .sectioned) (ht : table.Sized layout)
    (hav : table.Avoids flatDirectives) {first : Line} {body : List Line} {last : Line}
    (h : FlatProgram layout table use first body last) (records : List ObjectRecord)
    (written : List Modification) :
    make ⟨layout, .twoPass⟩ (directory (Flat.listedNames layout table first body last)) table
        (Flat.listedRows layout table first body last) = .ok (.made records written) ↔
      Resolved layout table first body last ∧ records = flatRecords layout table first body last ∧
      written = [] := by
  have hfirst :
      (Flat.listedRows layout table first body last).head? =
        some ⟨layout.load first, first, none⟩ := rfl
  have hlast : (Flat.listedRows layout table first body last).getLast? =
      some ⟨flatEnd layout table first body, last, none⟩ := by
    simp [Flat.listedRows, List.getLast?_cons]
  have hmoved : (layout == .relocatable && (layout.load first != 0)) = false := by
    cases layout with
    | relocatable => simp [load_eq_zero (by decide) h.load_layout]
    | _ => rfl
  have hfit : ∀ p ∈ flatRows layout table first body, p.1.line.Fits layout table use p.1.address ∧
      Text.hasDecimal p.2 = true ∧ p.2 = p.1.line.extent layout table := by
    intro p hp
    obtain ⟨hpfit, hext, h1, h2, h3⟩ := h.bounds ht hp
    have hload := h.load.1
    unfold lastAddress at h3
    exact ⟨hpfit, hasDecimal_of_natAbs_lt (by omega), hext⟩
  have hadd :
      ∀ e', (addRows _ (directory (Flat.listedNames layout table first body last)) table _
        ⟨[], [], []⟩ _ = .ok e' ∧
      e'.found = []) ↔ _ := fun e' => addRows_clean_iff hl hmoved ht hav hfit
  obtain ⟨n, m, hrows⟩ := sizedRows_listedRows layout table first body last
  rw [make, hfirst, hlast]
  simp only
  rw [between_eq_made_iff, hrows, addRows_frame _ _ _ _ _ h.start h.finish,
    endProblems_listedRows_iff h.finish_operands, entryPoint_eq h.finish_operands]
  rw [Flat.get?_listedNames] at hadd
  constructor
  · rintro ⟨e, he, hf, hmem, rfl, rfl⟩
    obtain ⟨-, hall, rfl⟩ := (hadd e).1 ⟨he, hf⟩
    exact ⟨⟨hall, hmem⟩, rfl, rfl⟩
  · rintro ⟨⟨hall, hmem⟩, rfl, rfl⟩
    obtain ⟨he, hf⟩ := (hadd _).2 ⟨rfl, hall, rfl⟩
    exact ⟨_, he, hf, hmem, rfl, rfl⟩

end TwoPass.FlatCode

theorem makeCode_flat (hl : layout ≠ .sectioned) (dir : Directory) (table : OpTable)
    (rows : List Row) :
    makeCode ⟨layout, .twoPass⟩ dir table rows = TwoPass.FlatCode.make
      ⟨layout, .twoPass⟩ dir table rows := by
  cases layout <;> first | rfl | exact absurd rfl hl

theorem listProgram_flat (hl : layout ≠ .sectioned) (table : OpTable) (use : NameUse)
    (program : List Line) :
    listProgram ⟨layout, .twoPass⟩ table use program =
      TwoPass.Flat.list ⟨layout, .twoPass⟩ table use program := by
  cases layout <;> first | rfl | exact absurd rfl hl

theorem assembleTwice_eq_made_iff {d : Dialect} {use : NameUse} {program : List Line}
    {rows : List Row} {symbols : Symbols} {records : List ObjectRecord}
    {written : List Modification} :
    assembleTwice d table use program =
      .ok (.listed rows symbols, some (.ok (.made records written))) ↔
      listProgram d table use program = .ok (.listed rows symbols) ∧
        makeCode d (.ofSymbols symbols) table rows = .ok (.made records written) := by
  rw [assembleTwice, map_eq_ok_iff]
  constructor
  · rintro ⟨listing, hlist, h⟩
    cases listing with
    | refused found => cases h
    | listed rows' symbols' =>
      simp only [Prod.mk.injEq, Listing.listed.injEq, Option.some.injEq] at h
      obtain ⟨⟨rfl, rfl⟩, hmake⟩ := h
      exact ⟨hlist, hmake⟩
  · rintro ⟨hlist, hmake⟩
    exact ⟨_, hlist, by simp only [hmake]⟩

/-- Two passes make object code of exactly the flat programs that begin with lines that nothing is
wrong with and whose operands have digits. -/
theorem assembleTwice_made_iff (hl : layout ≠ .sectioned) (ht : table.Sized layout)
    (hav : table.Avoids flatDirectives) (use : NameUse) (program : List Line) (rows : List Row)
    (symbols : Symbols) (records : List ObjectRecord) (written : List Modification) :
    assembleTwice ⟨layout, .twoPass⟩ table use program =
      .ok (.listed rows symbols, some (.ok (.made records written))) ↔
      ∃ first body last rest, program = first :: (body ++ last :: rest) ∧
        FlatProgram layout table (Dialect.heeded ⟨layout, .twoPass⟩ use) first body last ∧
        Resolved layout table first body last ∧
        rows = TwoPass.Flat.listedRows layout table first body last ∧
        symbols = .flat ((TwoPass.Flat.listedNames layout table first body last).mapValues some) ∧
        records = flatRecords layout table first body last ∧ written = [] := by
  rw [assembleTwice_eq_made_iff, listProgram_flat hl, makeCode_flat hl,
    TwoPass.Flat.list_eq_listed_iff]
  constructor
  · rintro ⟨⟨first, body, last, rest, rfl, hprog, rfl, rfl⟩, hmake⟩
    obtain ⟨hres, rfl, rfl⟩ := (TwoPass.FlatCode.make_eq_made_iff hl ht hav hprog _ _).1 hmake
    exact ⟨first, body, last, rest, rfl, hprog, hres, rfl, rfl, rfl, rfl⟩
  · rintro ⟨first, body, last, rest, rfl, hprog, hres, rfl, rfl, rfl, rfl⟩
    exact ⟨⟨first, body, last, rest, rfl, hprog, rfl, rfl⟩,
      (TwoPass.FlatCode.make_eq_made_iff hl ht hav hprog _ _).2 ⟨hres, rfl, rfl⟩⟩

end

end Assembler
