import Mathlib.Data.List.Forall2
import Assembler.Proofs.FlatAcceptance
import Assembler.Proofs.ParsedStrings
import Assembler.Proofs.Tiling
import Assembler.Proofs.Waiting

/-! # The structure of flat object programs

The second pass is given rows and names, and takes the sizes of lines from the distances between
rows.  Of what the first pass has listed it makes object code if and only if every name in a command
is known, no command has an empty string, and the program is entered at one of its rows
(`Resolvable`).  The object code then has one text record for each line of the body, with the space
of that line, and the text records lie without gap or overlap (`made_iff_resolvable`). -/

namespace Assembler
set_option autoImplicit false

/-- What the second pass asks of rows and names. -/
structure Resolvable (table : OpTable) (names : OrderedMap String (Option Int)) (rows : List Row) :
    Prop where
  known : ∀ r ∈ rows, (table.get? r.line.mnemonic).isSome = true → ∀ op ∈ r.line.operands, ∀ x,
    op.referredName? = some x → x ∈ names.keys
  strings : ∀ r ∈ rows, (table.get? r.line.mnemonic).isSome = true →
    Operand.chars "" ∉ r.line.operands
  entry : ∀ r ∈ rows, r.line.mnemonic = "END" → ∀ v, r.line.operands = [.number v] →
    ∃ q ∈ rows, q.address = v

/-- The text record of a row: it stands where the row does and has the size that the line asks
for. -/
inductive TextRecord (table : OpTable) (names : OrderedMap String (Option Int)) (r : Row) :
    ObjectRecord → Prop
  | command {op : Operation} {field : String} : table.get? r.line.mnemonic = some op →
    operandDigits? (.ofAddresses (fun x => (names.get? x).join) (r.address + op.size)) op.size
      r.line.operands = some field →
    TextRecord table names r (.code r.address op.size (codeByte op.opcode r.line.operands) field)
  | storage {kind : Storage} : r.line.mnemonic = kind.mnemonic →
    TextRecord table names r
      (storageRecord r.address (kind.space r.line.operands) (kind.digits? r.line.operands))

/-- A row with a command that has a direct name. -/
def Row.isDirect (table : OpTable) (r : Row) : Bool :=
  (table.get? r.line.mnemonic).isSome && (directName? r.line.operands).isSome

/-- The object code over the rows of a start directive, a body and an end directive. -/
def FlatStructure (layout : Layout) (table : OpTable) (names : OrderedMap String (Option Int))
    (first : Row) (body : List Row) (last : Row) (records : List ObjectRecord) : Prop :=
  ∃ texts, List.Forall₂ (TextRecord table names) body texts ∧
    Tiles first.address last.address texts ∧
    records = .header first.line.label first.address (some (last.address - first.address)) ::
      (texts ++ (if layout = .relocatable then (body.filter (·.isDirect table)).map fun r =>
        .modification r.address none
        else []) ++ [.finish ((onlyNumber? last.line.operands).getD first.address)])

section

variable {layout : Layout} {table : OpTable} {use : NameUse} {p : Row × Int} {a : Int}
  {l first last : Line} {body : List Line}

/-! ## Commands of a body -/

theorem get?_of_storage (hav : table.Avoids flatDirectives) {kind : Storage}
    (h : Statement.ofMnemonic layout table l.mnemonic = .storage kind) :
    table.get? l.mnemonic = none := by
  have hm : l.mnemonic = kind.mnemonic := Statement.stands_of_eq h
  apply hav
  rw [hm]
  cases kind <;> decide

theorem Admitted.referenceOf_iff {size : Int} {ops : List Operand} (h : Admitted size ops)
    {x : String} :
    referenceOf ops = some x ↔ ∃ op ∈ ops, op.referredName? = some x := by
  constructor
  · exact mem_of_referenceOf
  · rintro ⟨op, hop, hx⟩
    rcases h.reference hop hx with ⟨rfl, -⟩ | ⟨rfl, -⟩ <;> rfl

theorem fieldOf_isSome_iff_known (ht : table.Sized layout) (hav : table.Avoids flatDirectives)
    (hfit : p.1.line.Fits layout table use p.1.address) (hwritten : p.1.line.WellWritten)
    (ρ : String → Option Int) :
    (fieldOf layout table ρ p).isSome = true ↔ ((table.get? p.1.line.mnemonic).isSome = true →
      (∀ op ∈ p.1.line.operands, ∀ x, op.referredName? = some x → (ρ x).isSome = true) ∧
        Operand.chars "" ∉ p.1.line.operands) := by
  rcases hfit.cases with ⟨kind, al, hkind, -⟩ | ⟨op, hop, -⟩
  · simp [fieldOf, hkind, get?_of_storage hav hkind]
  · have hadmitted := hfit.admitted ht hop
    have hget := (Statement.stands_of_eq hop).1
    rw [fieldOf_isSome_iff ht hfit, hget, Option.isSome_some, forall_prop_of_true rfl, and_comm]
    refine and_congr ?_ ?_
    · constructor
      · intro h o ho x hx
        exact h x (hadmitted.referenceOf_iff.2 ⟨o, ho, hx⟩)
      · intro h x hx
        obtain ⟨o, ho, hx⟩ := hadmitted.referenceOf_iff.1 hx
        exact h o ho x hx
    · constructor
      · intro h hmem
        exact (Operand.legible_iff (hwritten _ hmem)).1 (h op hop _ hmem) rfl
      · intro h op' _ o ho
        exact (Operand.legible_iff (hwritten o ho)).2 fun heq => h (heq ▸ ho)

/-! ## Programs that can be resolved -/

theorem mem_keys_listedNames {x : String} :
    x ∈ ((TwoPass.Flat.listedNames layout table first body last).mapValues some).keys ↔
      (flatLabels layout table first body last x).isSome = true := by
  rw [OrderedMap.mem_keys_iff, OrderedMap.get?_mapValues, Option.isSome_map,
    TwoPass.Flat.get?_listedNames]

theorem forall_command_iff (hav : table.Avoids flatDirectives)
    (h : FlatProgram layout table use first body last) {P : Row → Prop} :
    (∀ r ∈ TwoPass.Flat.listedRows layout table first body last,
      (table.get? r.line.mnemonic).isSome = true → P r) ↔
      ∀ p ∈ flatRows layout table first body, (table.get? p.1.line.mnemonic).isSome = true →
      P p.1 := by
  have hfirst : table.get? first.mnemonic = none := hav _ (by rw [h.start]; decide)
  have hlast : table.get? last.mnemonic = none := hav _ (by rw [h.finish]; decide)
  simp only [TwoPass.Flat.listedRows, List.forall_mem_cons, List.forall_mem_append,
    List.forall_mem_map, hfirst, hlast, Option.isSome_none, Bool.false_eq_true, false_implies,
    true_and, and_true, List.not_mem_nil, implies_true]

theorem entry_iff (h : FlatProgram layout table use first body last) :
    flatEntry layout first last ∈ flatAddresses layout table first body ↔
      ∀ r ∈ TwoPass.Flat.listedRows layout table first body last, r.line.mnemonic = "END" →
        ∀ v, r.line.operands = [.number v] →
          ∃ q ∈ TwoPass.Flat.listedRows layout table first body last, q.address = v := by
  have hlast : (⟨flatEnd layout table first body, last, none⟩ : Row) ∈
      TwoPass.Flat.listedRows layout table first body last := by simp [TwoPass.Flat.listedRows]
  constructor
  · intro hentry r hr hend v hv
    have hline : r.line = last := by
      simp only [TwoPass.Flat.listedRows, List.mem_cons, List.mem_append, List.mem_map,
        List.not_mem_nil, or_false] at hr
      rcases hr with rfl | ⟨q, hq, rfl⟩ | rfl
      · simp [h.start] at hend
      · exact absurd hend (h.body_fits.fits q hq).not_frame.2
      · rfl
    have hvalue : flatEntry layout first last = v := by
      rw [flatEntry, ← hline, hv]
      rfl
    rw [hvalue] at hentry
    exact (TwoPass.FlatCode.mem_flatAddresses_iff last).1 hentry
  · intro hentry
    rcases isOptionalNumber_iff.1 h.finish_operands with hops | ⟨v, hops⟩
    · rw [flatEntry, hops]
      exact List.mem_cons_self
    · rw [flatEntry, hops, TwoPass.FlatCode.mem_flatAddresses_iff last]
      exact hentry _ hlast h.finish v hops

theorem resolved_iff_resolvable (ht : table.Sized layout) (hav : table.Avoids flatDirectives)
    (h : FlatProgram layout table use first body last) (hwritten : ∀ l ∈ body, l.WellWritten) :
    Resolved layout table first body last ↔
      Resolvable table ((TwoPass.Flat.listedNames layout table first body last).mapValues some)
        (TwoPass.Flat.listedRows layout table first body last) := by
  have hfield : ∀ p ∈ flatRows layout table first body, _ := fun p hp =>
    fieldOf_isSome_iff_known ht hav (h.body_fits.fits p hp)
      (hwritten _
        (by rw [← placed_map_line layout table none _ body]; exact List.mem_map_of_mem hp))
      (flatLabels layout table first body last)
  constructor
  · intro hres
    refine ⟨(forall_command_iff hav h).2 fun p hp hget op hop x hx => ?_,
      (forall_command_iff hav h).2 fun p hp hget => ?_, (entry_iff h).1 hres.entry⟩
    · exact mem_keys_listedNames.2 (((hfield p hp).1 (hres.fields p hp) hget).1 op hop x hx)
    · exact ((hfield p hp).1 (hres.fields p hp) hget).2
  · intro hres
    refine ⟨fun p hp => (hfield p hp).2 fun hget => ⟨fun op hop x hx => ?_, ?_⟩,
      (entry_iff h).2 hres.entry⟩
    · exact mem_keys_listedNames.1 ((forall_command_iff hav h).1 hres.known p hp hget op hop x hx)
    · exact (forall_command_iff hav h).1 hres.strings p hp hget

/-! ## Records of a program -/

theorem textRecord_of_resolved (h : FlatProgram layout table use first body last)
    (hres : Resolved layout table first body last) (hp : p ∈ flatRows layout table first body) :
    TextRecord table ((TwoPass.Flat.listedNames layout table first body last).mapValues some) p.1
      (recordOf layout table p
        ((fieldOf layout table (flatLabels layout table first body last) p).getD "")) := by
  have hsize : p.2 = p.1.line.extent layout table := snd_of_mem_placed layout table none hp
  have hlabels :
      (fun x => (((TwoPass.Flat.listedNames layout table first body last).mapValues some).get?
        x).join) =
      flatLabels layout table first body last :=
    funext (TwoPass.Flat.join_get?_listedNames layout table first body last)
  obtain ⟨field, hfield⟩ := Option.isSome_iff_exists.1 (hres.fields p hp)
  rw [hfield, Option.getD_some]
  unfold fieldOf at hfield
  unfold recordOf
  rcases (h.body_fits.fits p hp).cases with ⟨kind, al, hkind, hal, -⟩ | ⟨op, hop, -⟩
  · rw [extent_of_storage hkind, Storage.extent_eq_space hal] at hsize
    simp only [hkind, hsize]
    exact .storage (Statement.stands_of_eq hkind)
  · rw [extent_of_command hop] at hsize
    simp only [hop, hsize] at hfield ⊢
    exact .command (Statement.stands_of_eq hop).1 (hlabels ▸ hfield)

theorem tiles_of_fits (ht : table.Sized layout) {f : Row × Int → String}
    (hfit : ∀ p ∈ placed layout table none a body, p.1.line.Fits layout table use p.1.address) :
    Tiles a (a + extentOf layout table body)
      ((placed layout table none a body).map fun p => recordOf layout table p (f p)) := by
  have hplace : ∀ p ∈ placed layout table none a body,
      (recordOf layout table p (f p)).place? = some (p.1.address, p.2) :=
      fun p hp => place?_recordOf (hfit p hp) _
  have htiles := @tiles_placed layout table none a body (fun p => recordOf layout table p (f p))
    fun p hp => .inl ⟨((bounds_of_mem_placed ht hfit).2 p hp).2.1, hplace p hp⟩
  rw [List.filter_eq_self.2] at htiles
  · exact htiles
  · intro o ho
    obtain ⟨p, hp, rfl⟩ := List.mem_map.1 ho
    rw [hplace p hp]
    rfl

theorem modifiedIn_eq (ht : table.Sized layout) (hav : table.Avoids flatDirectives)
    (hfit : p.1.line.Fits layout table use p.1.address) :
    modifiedIn layout table p = if layout = .relocatable ∧ p.1.isDirect table = true
      then [p.1.address] else [] := by
  unfold modifiedIn Row.isDirect
  rcases hfit.cases with ⟨kind, al, hkind, -⟩ | ⟨op, hop, -⟩
  · simp [hkind, get?_of_storage hav hkind]
  · have hdirect := (hfit.admitted ht hop).addressing_eq_direct_iff
    simp only [hop, (Statement.stands_of_eq hop).1, Option.isSome_some, Bool.true_and,
      Bool.and_eq_true, beq_iff_eq, hdirect]

theorem modified_eq (ht : table.Sized layout) (hav : table.Avoids flatDirectives)
    {ps : List (Row × Int)} (hfit : ∀ p ∈ ps, p.1.line.Fits layout table use p.1.address) :
    (ps.flatMap (modifiedIn layout table)).map (ObjectRecord.modification · none) =
      if layout = .relocatable then ((ps.map (·.1)).filter (·.isDirect table)).map fun r =>
        .modification r.address none
      else [] := by
  induction ps with
  | nil => simp
  | cons p ps ih =>
    obtain ⟨hp, hps⟩ := List.forall_mem_cons.1 hfit
    rw [List.flatMap_cons, List.map_append, ih hps, modifiedIn_eq ht hav hp]
    by_cases hlayout : layout = .relocatable
    · by_cases hdirect : p.1.isDirect table = true
      · simp [hlayout, hdirect]
      · simp [hlayout, hdirect]
    · simp [hlayout]

theorem flatStructure_of_resolved (ht : table.Sized layout) (hav : table.Avoids flatDirectives)
    (h : FlatProgram layout table use first body last)
    (hres : Resolved layout table first body last) :
    FlatStructure layout table
      ((TwoPass.Flat.listedNames layout table first body last).mapValues some)
        ⟨layout.load first, first, none⟩ ((flatRows layout table first body).map (·.1))
      ⟨flatEnd layout table first body, last, none⟩ (flatRecords layout table first body last) := by
  refine ⟨(flatRows layout table first body).map fun p =>
      recordOf layout table p
        ((fieldOf layout table (flatLabels layout table first body last) p).getD ""),
    ?_, tiles_of_fits ht h.body_fits.fits, ?_⟩
  · rw [List.forall₂_map_left_iff, List.forall₂_map_right_iff, List.forall₂_same]
    exact fun p hp => textRecord_of_resolved h hres hp
  · have hmodified : ((flatRows layout table first body).flatMap (modifiedIn layout table)).map
        (ObjectRecord.modification · none) = _ := modified_eq ht hav h.body_fits.fits
    rw [flatRecords, hmodified]
    rfl

end

/-- Of a source text that the first pass lists, the second pass makes object code if and only if the
rows can be resolved.  The object code has one text record for each row of the body, from the load
address on without gap or overlap. -/
theorem made_iff_resolvable (layout : Layout) (hl : layout ≠ .sectioned) (table : OpTable)
    (ht : table.Sized layout) (hav : table.Avoids flatDirectives) (i : Int) (text : String)
    (source : Source) (hparse : Source.parse ⟨layout, .twoPass⟩ text = .ok source) (rows : List Row)
    (symbols : Symbols)
    (hlist : listProgram ⟨layout, .twoPass⟩ table (.ofIndex i) source.lines =
      .ok (.listed rows symbols)) :
    ∃ names first body last, symbols = .flat names ∧ rows = first :: (body ++ [last]) ∧
      first.line.mnemonic = "START" ∧ last.line.mnemonic = "END" ∧
      ((∃ records written, makeCode ⟨layout, .twoPass⟩ (.ofSymbols symbols) table rows =
        .ok (.made records written)) ↔
        Resolvable table names rows) ∧
      ∀ records written, makeCode ⟨layout, .twoPass⟩ (.ofSymbols symbols) table rows =
        .ok (.made records written) →
        FlatStructure layout table names first body last records ∧ written = [] := by
  rw [listProgram_flat hl, TwoPass.Flat.list_eq_listed_iff] at hlist
  obtain ⟨first, body, last, rest, hcut, hprog, rfl, rfl⟩ := hlist
  have hwritten : ∀ l ∈ body, l.WellWritten := by
    intro l hmem
    apply Source.wellWritten_of_parse hparse
    rw [hcut]
    exact List.mem_cons_of_mem _ (List.mem_append_left _ hmem)
  have hmake := fun records written =>
    TwoPass.FlatCode.make_eq_made_iff hl ht hav hprog records written
  have hresolved := resolved_iff_resolvable ht hav hprog hwritten
  rw [makeCode_flat hl]
  refine ⟨_, _, _, _, rfl, rfl, hprog.start, hprog.finish, ?_, ?_⟩
  · rw [← hresolved]
    constructor
    · rintro ⟨records, written, h⟩
      exact ((hmake records written).1 h).1
    · intro h
      exact ⟨_, _, (hmake _ _).2 ⟨h, rfl, rfl⟩⟩
  · intro records written h
    obtain ⟨hres, rfl, rfl⟩ := (hmake records written).1 h
    exact ⟨flatStructure_of_resolved ht hav hprog hres, rfl⟩

/-- A source text with lines of every kind, entered at its jump. -/
def resolvedText : String :=
  "P: START\nA: WORD x'1aB'\n RESB 2\n JMP B\n LDR @A\n ADD c'x'\nB: BYTE c'xy'\n END 8"

def resolvedLines : List Line :=
  [⟨some "P", ⟨"START", []⟩⟩, ⟨some "A", ⟨"WORD", [.hex "1aB"]⟩⟩, ⟨none, ⟨"RESB", [.number 2]⟩⟩,
    ⟨none, ⟨"JMP", [.direct "B"]⟩⟩, ⟨none, ⟨"LDR", [.relative "A"]⟩⟩, ⟨none, ⟨"ADD", [.chars "x"]⟩⟩,
    ⟨some "B", ⟨"BYTE", [.chars "xy"]⟩⟩, ⟨none, ⟨"END", [.number 8]⟩⟩]

/-- The operations of the source text. -/
def resolvedOperations : OpTable := .ofTriples [("ADD", 3, 2), ("JMP", 1, 4), ("LDR", 2, 3)]

/-- The object code of the source text. -/
def resolvedRecords : List ObjectRecord :=
  [.header (some "P") 0 (some 19), .data 0 6 "0001aB", .space 6 2, .code 8 4 5 "000011",
    .code 12 3 10 "FFF1", .code 15 2 12 "78", .data 17 2 "7879", .modification 8 none, .finish 8]

theorem resolvedText_structure :
    resolvedOperations.Sized .relocatable ∧ resolvedOperations.Avoids flatDirectives ∧
      Source.parse ⟨.relocatable, .twoPass⟩ resolvedText = .ok ⟨resolvedLines, []⟩ ∧
      ∃ rows symbols,
      listProgram ⟨.relocatable, .twoPass⟩ resolvedOperations (.ofIndex 2) resolvedLines =
          .ok (.listed rows symbols) ∧
        makeCode ⟨.relocatable, .twoPass⟩ (.ofSymbols symbols) resolvedOperations rows =
          .ok (.made resolvedRecords []) ∧
        ∃ names first body last, symbols = .flat names ∧ rows = first :: (body ++ [last]) ∧
          Resolvable resolvedOperations names rows ∧
          FlatStructure .relocatable resolvedOperations names first body last resolvedRecords := by
  have ht : resolvedOperations.Sized .relocatable := OpTable.sized_of_forall (by decide +kernel)
  have hav : resolvedOperations.Avoids flatDirectives := by unfold OpTable.Avoids; decide +kernel
  have hparse : Source.parse ⟨.relocatable, .twoPass⟩ resolvedText = .ok ⟨resolvedLines, []⟩ := by
    decide +kernel
  obtain ⟨rows, symbols, hlist, hmake⟩ : ∃ rows symbols,
      listProgram ⟨.relocatable, .twoPass⟩ resolvedOperations (.ofIndex 2) resolvedLines =
        .ok (.listed rows symbols) ∧
      makeCode ⟨.relocatable, .twoPass⟩ (.ofSymbols symbols) resolvedOperations rows =
        .ok (.made resolvedRecords []) :=
    ⟨_, _, rfl, rfl⟩
  obtain ⟨names, first, body, last, hnames, hrows, -, -, hiff, hshape⟩ :=
    made_iff_resolvable .relocatable (by decide) _ ht hav 2 resolvedText _ hparse rows symbols hlist
  exact ⟨ht, hav, hparse, rows, symbols, hlist, hmake, names, first, body, last, hnames, hrows,
    hiff.1 ⟨_, _, hmake⟩, (hshape _ _ hmake).1⟩

end Assembler
