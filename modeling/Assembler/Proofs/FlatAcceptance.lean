import Mathlib.Data.List.Nodup
import Assembler.Assembly
import Assembler.Proofs.FlatObject

/-! # Which flat programs are well formed

The first of two passes counts addresses while it checks lines, and reports what it meets on the
way.  What it accepts can be said without counting: each line is well formed on its own
(`Line.WellFormed`), the labels are distinct, and there is room for all lines together
(`WellFormedProgram`).  Since spaces are not negative, every address on the way lies in memory if
the last one does (`bodyFits_of_wellFormed`).  The listing then holds the lines at the sums of the
spaces before them (`listed_iff_wellFormed`). -/

namespace Assembler
set_option autoImplicit false

/-- The names in operands are of the chosen kind. -/
def NameUse.Allows : NameUse → List Operand → Prop
  | .directOnly, ops => ∀ x, .relative x ∉ ops
  | .relativeOnly, ops => ∀ x, .direct x ∉ ops
  | .both, _ => True

/-- A line that may stand in the body of a flat program, wherever that is. -/
inductive Line.WellFormed (table : OpTable) (use : NameUse) (l : Line) : Prop
  | word {v : Int} : l.mnemonic = "WORD" → l.operands = [.number v] → 0 ≤ v → v ≤ 0xFFFFFF →
      l.WellFormed table use
  | byte {v : Int} : l.mnemonic = "BYTE" → l.operands = [.number v] → 0 ≤ v → v ≤ 0xFF →
      l.WellFormed table use
  | string {op : Operand} : l.mnemonic = "WORD" ∨ l.mnemonic = "BYTE" → l.operands = [op] →
      op.isString = true →
    l.WellFormed table use
  | reserve {v : Int} : l.mnemonic = "RESW" ∨ l.mnemonic = "RESB" →
      l.operands = [.number v] → 0 ≤ v →
    l.WellFormed table use
  | command {op : Operation} : l.mnemonic ∉ flatDirectives → table.get? l.mnemonic = some op →
    Admitted op.size l.operands → use.Allows l.operands → l.WellFormed table use

def Layout.LoadsAt : Layout → Int → Prop
  | .absolute, a => 1 ≤ a ∧ a ≤ 0xFFFFFF
  | _, a => a = 0

/-- A start directive, a body and an end directive that make up a flat program. -/
structure WellFormedProgram (layout : Layout) (table : OpTable) (use : NameUse) (first : Line)
    (body : List Line) (last : Line) :
    Prop where
  start : first.mnemonic = "START"
  start_label : first.name?.isSome = true
  start_operands : first.operands = [] ∨ ∃ v, first.operands = [.number v]
  load : layout.LoadsAt (layout.load first)
  lines : ∀ l ∈ body, l.WellFormed table use
  finish : last.mnemonic = "END"
  finish_operands : last.operands = [] ∨ ∃ v, last.operands = [.number v]
  labels : ((body ++ [last]).filterMap Line.name?).Nodup
  room : layout.load first + spaceOf layout table body ≤ 0xFFFFFF

/-- Lines at the sums of the spaces of the lines before them. -/
def rowsFrom (layout : Layout) (table : OpTable) : Int → List Line → List Row
  | _, [] => []
  | a, l :: ls => ⟨a, l, none⟩ :: rowsFrom layout table (a + l.space layout table) ls

/-- The labels of rows with the addresses of the rows. -/
def labelEntries (rows : List Row) : List (String × Option Int) :=
  rows.filterMap fun r => r.line.name?.map fun x => (x, some r.address)

section

variable {layout : Layout} {table : OpTable} {use : NameUse} {a : Int} {l : Line}

/-! ## Lines -/

theorem Operand.kind_eq_direct_iff {op : Operand} : op.kind = .direct ↔ ∃ x, op = .direct x := by
  cases op <;> simp [kind]

theorem Operand.kind_eq_relative_iff {op : Operand} :
    op.kind = .relative ↔ ∃ x, op = .relative x := by
  cases op <;> simp [kind]

theorem Operand.isString_iff {op : Operand} : op.isString = true ↔ (∃ s, op = .chars s) ∨
    ∃ s, op = .hex s := by
  cases op <;> simp [isString]

theorem nameUseProblems_eq_nil_iff {ops : List Operand} : nameUseProblems use ops = [] ↔
    use.Allows ops := by
  cases use with
  | directOnly => simp [nameUseProblems, NameUse.Allows, Operand.kind_eq_relative_iff]
  | relativeOnly => simp [nameUseProblems, NameUse.Allows, Operand.kind_eq_direct_iff]
  | both => simp [nameUseProblems, NameUse.Allows]

theorem isOptionalNumber_iff {ops : List Operand} : isOptionalNumber ops = true ↔ ops = [] ∨
    ∃ v, ops = [.number v] := by
  constructor
  · intro h
    unfold isOptionalNumber at h
    split at h
    · exact .inl rfl
    · exact .inr ⟨_, rfl⟩
    · cases h
  · rintro (rfl | ⟨v, rfl⟩) <;> rfl

theorem ofMnemonic_storage (kind : Storage) (h : l.mnemonic = kind.mnemonic) :
    Statement.ofMnemonic layout table l.mnemonic = .storage kind := by
  rw [h]
  cases kind <;> rfl

theorem ofMnemonic_command (hl : layout ≠ .sectioned) {op : Operation}
    (hm : l.mnemonic ∉ flatDirectives) (hop : table.get? l.mnemonic = some op) :
    Statement.ofMnemonic layout table l.mnemonic = .command op := by
  have htable : Statement.ofTable table l.mnemonic = .command op := by
    simp only [Statement.ofTable, hop]
  have honly : ∀ s, Statement.sectionOnly layout s (.command op) = .command op := by
    intro s
    cases layout with
    | sectioned => exact absurd rfl hl
    | _ => rfl
  simp only [flatDirectives, List.mem_cons, List.not_mem_nil, or_false, not_or] at hm
  simp only [Statement.ofMnemonic, hm, if_false, htable, honly, ite_self]

theorem fits_of_storage (kind : Storage) (hm : l.mnemonic = kind.mnemonic)
    (h : ∃ al, kind.allot a l.operands = .ok al ∧ al.problems = []) :
    l.Fits layout table use a := by
  rw [Line.Fits, ofMnemonic_storage kind hm]
  exact h

theorem Line.Fits.wellFormed (ht : table.Sized layout) (h : l.Fits layout table use a) :
    l.WellFormed table use := by
  rcases h.cases with ⟨kind, al, hkind, hal, hp⟩ | ⟨op, hop, -, hu⟩
  · have hm : l.mnemonic = kind.mnemonic := Statement.stands_of_eq hkind
    unfold Storage.allot at hal
    split at hal <;> cases hal
    · next v hops =>
      have hv : 0 ≤ v ∧ v ≤ 0xFFFFFF := by simpa using hp
      exact .word hm hops hv.1 hv.2
    · next s hops => exact .string (.inl hm) hops rfl
    · next s hops => exact .string (.inl hm) hops rfl
    · next v hops => exact .reserve (.inl hm) hops (by simp [reservation] at hp; omega)
    · next v hops =>
      have hv : 0 ≤ v ∧ v ≤ 0xFF := by simpa using hp
      exact .byte hm hops hv.1 hv.2
    · next s hops => exact .string (.inr hm) hops rfl
    · next s hops => exact .string (.inr hm) hops rfl
    · next v hops => exact .reserve (.inr hm) hops (by simp [reservation] at hp; omega)
  · obtain ⟨hget, hm, -⟩ := Statement.stands_of_eq hop
    exact .command hm hget (h.admitted ht hop) (nameUseProblems_eq_nil_iff.1 hu)

/-- A well-formed line fits wherever it ends in memory. -/
theorem Line.WellFormed.fits (hl : layout ≠ .sectioned) (ht : table.Sized layout)
    (h : l.WellFormed table use) (hend : InMemory (a + l.space layout table)) :
    l.Fits layout table use a := by
  cases h with
  | word hm hops h0 h1 =>
    exact fits_of_storage .words hm ⟨_, by rw [hops]; rfl, by simp [h0, h1]⟩
  | byte hm hops h0 h1 =>
    exact fits_of_storage .bytes hm ⟨_, by rw [hops]; rfl, by simp [h0, h1]⟩
  | string hm hops hop =>
    rcases Operand.isString_iff.1 hop with ⟨s, rfl⟩ | ⟨s, rfl⟩ <;> rcases hm with hm | hm
    · exact fits_of_storage .words hm ⟨_, by rw [hops]; rfl, rfl⟩
    · exact fits_of_storage .bytes hm ⟨_, by rw [hops]; rfl, rfl⟩
    · exact fits_of_storage .words hm ⟨_, by rw [hops]; rfl, rfl⟩
    · exact fits_of_storage .bytes hm ⟨_, by rw [hops]; rfl, rfl⟩
  | @reserve v hm hops h0 =>
    rcases hm with hm | hm
    · rw [Line.space, ofMnemonic_storage .reservedWords hm, hops] at hend
      have hsize : ¬ 3 * v < 0 := by omega
      refine fits_of_storage .reservedWords hm ⟨_, by rw [hops]; rfl, ?_⟩
      simp only [reservation, hsize, if_false, List.nil_append, rangeProblems_eq_nil_iff]
      exact hend
    · rw [Line.space, ofMnemonic_storage .reservedBytes hm, hops] at hend
      have hsize : ¬ v < 0 := by omega
      refine fits_of_storage .reservedBytes hm ⟨_, by rw [hops]; rfl, ?_⟩
      simp only [reservation, hsize, if_false, List.nil_append, rangeProblems_eq_nil_iff]
      exact hend
  | command hm hop hadm huse =>
    have hst := ofMnemonic_command hl hm hop
    rw [Line.space, hst] at hend
    rw [Line.Fits, hst]
    exact ⟨(commandProblems_eq_nil_iff (ht.mem_commandSizes hst) _ _ _).2 ⟨hadm, hend⟩,
      nameUseProblems_eq_nil_iff.2 huse⟩

theorem Line.WellFormed.space_nonneg (hl : layout ≠ .sectioned) (ht : table.Sized layout)
    (h : l.WellFormed table use) :
    0 ≤ l.space layout table := by
  unfold Line.space
  cases h with
  | word hm hops =>
    rw [ofMnemonic_storage .words hm, hops]
    exact Int.natCast_nonneg 3
  | byte hm hops =>
    rw [ofMnemonic_storage .bytes hm, hops]
    exact Int.natCast_nonneg 1
  | @string op hm hops =>
    rcases hm with hm | hm
    · rw [ofMnemonic_storage .words hm, hops]
      show 0 ≤ 3 * (op.size : Int)
      omega
    · rw [ofMnemonic_storage .bytes hm, hops]
      show 0 ≤ (op.size : Int)
      omega
  | @reserve v hm hops h0 =>
    rcases hm with hm | hm
    · rw [ofMnemonic_storage .reservedWords hm, hops]
      show 0 ≤ 3 * v
      omega
    · rw [ofMnemonic_storage .reservedBytes hm, hops]
      exact h0
  | command hm hop =>
    have hst := ofMnemonic_command hl hm hop
    have hsize := Layout.mem_commandSizes (ht.mem_commandSizes hst)
    rw [hst]
    show 0 ≤ Operation.size _
    omega

theorem spaceOf_nonneg (hl : layout ≠ .sectioned) (ht : table.Sized layout) {ls : List Line}
    (h : ∀ l ∈ ls, l.WellFormed table use) : 0 ≤ spaceOf layout table ls := by
  induction ls with
  | nil => exact Int.le_refl 0
  | cons l ls ih =>
    have hspace := (h l List.mem_cons_self).space_nonneg hl ht
    have hrest := ih fun k hk => h k (List.mem_cons_of_mem _ hk)
    rw [spaceOf]
    omega

/-! ## Labels -/

theorem allAlong_fresh_iff {known : String → Option Int} {ls : List Line} :
    AllAlong layout table (fun _ known l => Fresh known l) a known ls ↔
      (ls.filterMap Line.name?).Nodup ∧ ∀ x ∈ ls.filterMap Line.name?, known x = none := by
  induction ls generalizing a known with
  | nil => simp [AllAlong]
  | cons l ls ih =>
    rw [AllAlong, ih]
    cases hname : l.name? with
    | none =>
      rw [labelled_of_none hname, List.filterMap_cons_none hname]
      exact and_iff_right fun x hx => by simp [hname] at hx
    | some y =>
      rw [labelled_of_some hname, List.filterMap_cons_some hname, List.nodup_cons,
        List.forall_mem_cons]
      have hfresh : Fresh known l ↔ known y = none := by simp [Fresh, hname]
      rw [hfresh]
      constructor
      · rintro ⟨hy, hnodup, hrest⟩
        refine ⟨⟨fun hmem => ?_, hnodup⟩, hy, fun x hx => ?_⟩
        · simpa using hrest y hmem
        · have hx := hrest x hx
          simp only at hx
          split at hx
          · cases hx
          · exact hx
      · rintro ⟨⟨hy, hnodup⟩, hnone, hrest⟩
        refine ⟨hnone, hnodup, fun x hx => ?_⟩
        have hne : y ≠ x := fun heq => hy (heq ▸ hx)
        simp only [hne, if_false]
        exact hrest x hx

theorem fresh_addressOf_iff {rows : List Row} {last : Line} : Fresh (addressOf rows) last ↔
    ∀ x, last.name? = some x → x ∉ (rows.map (·.line)).filterMap Line.name? := by
  simp only [Fresh, addressOf_eq_none_iff, List.mem_filterMap, List.mem_map, not_exists, not_and]
  constructor
  · rintro h x hx l ⟨r, hr, rfl⟩
    exact h x hx r hr
  · intro h x hx r hr
    exact h x hx r.line ⟨r, hr, rfl⟩

theorem labels_nodup_iff {body : List Line} {last : Line} :
    ((body ++ [last]).filterMap Line.name?).Nodup ↔
    AllAlong layout table (fun _ known l => Fresh known l) a (fun _ => none) body ∧
      Fresh (addressOf ((placed layout table none a body).map (·.1))) last := by
  rw [allAlong_fresh_iff, fresh_addressOf_iff, List.map_map, List.filterMap_append,
    List.nodup_append]
  have hlines : (placed layout table none a body).map ((·.line) ∘ (·.1)) = body :=
    placed_map_line layout table none a body
  rw [hlines]
  cases hname : last.name? with
  | none => simp [hname]
  | some x =>
    simp only [List.filterMap_cons_some hname, List.filterMap_nil, List.mem_singleton,
      List.nodup_singleton, true_and, Option.some.injEq, implies_true, and_true]
    refine and_congr_right fun _ => ?_
    constructor
    · rintro h y rfl hy
      exact h _ hy _ rfl rfl
    · rintro h y hy z rfl rfl
      exact h _ rfl hy

/-! ## Programs -/

/-- Lines that are well formed, have new labels and end in memory fit one behind another: no address
on the way is out of range if the last one is not. -/
theorem bodyFits_of_wellFormed (hl : layout ≠ .sectioned) (ht : table.Sized layout)
    {known : String → Option Int} {ls : List Line} (h : ∀ l ∈ ls, l.WellFormed table use)
    (hfresh : AllAlong layout table (fun _ known l => Fresh known l) a known ls) (h0 : 0 ≤ a)
    (hroom : a + spaceOf layout table ls ≤ lastAddress) : BodyFits layout table use a known ls := by
  induction ls generalizing a known with
  | nil => trivial
  | cons l ls ih =>
    obtain ⟨hl₁, hrest⟩ := List.forall_mem_cons.1 h
    have hspace := hl₁.space_nonneg hl ht
    have hbehind := spaceOf_nonneg hl ht hrest
    rw [spaceOf] at hroom
    have hfit : l.Fits layout table use a := hl₁.fits hl ht ⟨by omega, by omega⟩
    have hextent := hfit.extent_eq_space
    refine ⟨⟨hfresh.1, fun _ => ⟨h0, by omega⟩, hfit⟩, ih hrest hfresh.2 (by omega) (by omega)⟩

theorem loadsAt_iff (hl : layout ≠ .sectioned) : InMemory a ∧ layout.loadProblems a = [] ↔
    layout.LoadsAt a := by
  cases layout with
  | sectioned => exact absurd rfl hl
  | absolute =>
    simp only [InMemory, lastAddress, Layout.loadProblems, Layout.LoadsAt, ite_eq_right_iff,
      reduceCtorEq, imp_false]
    omega
  | relocatable =>
    simp only [InMemory, lastAddress, Layout.loadProblems, Layout.LoadsAt, ite_eq_left_iff,
      reduceCtorEq, imp_false]
    omega

theorem flatProgram_iff_wellFormed (hl : layout ≠ .sectioned) (ht : table.Sized layout)
    {first last : Line} {body : List Line} :
    FlatProgram layout table use first body last ↔
      WellFormedProgram layout table use first body last := by
  constructor
  · intro h
    have hspace := extentOf_eq_spaceOf h.body_fits.extent_eq_space
    refine
      { start := h.start
        start_label := h.start_label
        start_operands := isOptionalNumber_iff.1 h.start_operands
        load := (loadsAt_iff hl).1 ⟨h.load, h.load_layout⟩
        lines := fun l hmem => ?_
        finish := h.finish
        finish_operands := isOptionalNumber_iff.1 h.finish_operands
        labels := labels_nodup_iff.2 ⟨h.body_fits.imp fun _ _ _ hl => hl.fresh, h.finish_label⟩
        room := hspace ▸ h.finish_inMemory.2 }
    obtain ⟨b, hfit⟩ := h.body_fits.line_fits hmem
    exact hfit.wellFormed ht
  · intro h
    obtain ⟨hload, hlayout⟩ := (loadsAt_iff hl).2 h.load
    obtain ⟨hfresh, hlabel⟩ := labels_nodup_iff.1 h.labels
    have hbody := bodyFits_of_wellFormed hl ht h.lines hfresh hload.1 h.room
    have hnonneg := spaceOf_nonneg hl ht h.lines
    have hstart := hload.1
    exact
      { start := h.start
        start_operands := isOptionalNumber_iff.2 h.start_operands
        start_label := h.start_label
        load := hload
        load_layout := hlayout
        body_fits := hbody
        finish := h.finish
        finish_operands := isOptionalNumber_iff.2 h.finish_operands
        finish_label := hlabel
        finish_inMemory := by
          rw [flatEnd, extentOf_eq_spaceOf hbody.extent_eq_space]
          exact ⟨by omega, h.room⟩ }

/-! ## The listing -/

theorem placed_eq_rowsFrom {ls : List Line}
    (h : ∀ l ∈ ls, l.extent layout table = l.space layout table) :
    (placed layout table none a ls).map (·.1) = rowsFrom layout table a ls := by
  induction ls generalizing a with
  | nil => rfl
  | cons l ls ih =>
    rw [placed, List.map_cons, ih fun k hk => h k (List.mem_cons_of_mem _ hk),
      h l List.mem_cons_self]
    rfl

theorem rowsFrom_concat (ls : List Line) (l : Line) : rowsFrom layout table a (ls ++ [l]) =
    rowsFrom layout table a ls ++ [⟨a + spaceOf layout table ls, l, none⟩] := by
  induction ls generalizing a with
  | nil => simp [rowsFrom, spaceOf]
  | cons k ls ih => simp [rowsFrom, spaceOf, ih, Int.add_assoc]

theorem rowsFrom_map_line (ls : List Line) : (rowsFrom layout table a ls).map (·.line) = ls := by
  induction ls generalizing a with
  | nil => rfl
  | cons l ls ih => simp [rowsFrom, ih]

theorem entries_noteNames {names : OrderedMap String Int} {rows : List Row}
    (hnodup : ((rows.map (·.line)).filterMap Line.name?).Nodup)
    (hnew : ∀ x ∈ (rows.map (·.line)).filterMap Line.name?, names.get? x = none) :
    ((noteNames names rows).mapValues some).entries = (names.mapValues some).entries ++
      labelEntries rows := by
  induction rows generalizing names with
  | nil => simp [noteNames, labelEntries]
  | cons r rows ih =>
    have hstep : noteNames names (r :: rows) = noteNames (noteName names r.address r.line) rows :=
      rfl
    rw [hstep]
    rw [List.map_cons] at hnodup hnew
    cases hname : r.line.name? with
    | none =>
      have hnote : noteName names r.address r.line = names := by simp only [noteName, hname]
      rw [List.filterMap_cons_none hname] at hnodup hnew
      rw [hnote, ih hnodup hnew]
      simp [labelEntries, hname]
    | some x =>
      have hnote : noteName names r.address r.line = names.insert x r.address := by
        simp only [noteName, hname]
      rw [List.filterMap_cons_some hname, List.nodup_cons] at hnodup
      rw [List.filterMap_cons_some hname, List.forall_mem_cons] at hnew
      rw [hnote, ih hnodup.2]
      · simp [OrderedMap.mapValues, OrderedMap.entries_insert hnew.1, labelEntries, hname]
      · intro y hy
        have hne : x ≠ y := fun heq => hnodup.1 (heq ▸ hy)
        rw [OrderedMap.get?_insert, if_neg hne]
        exact hnew.2 y hy

end

/-- The first of two passes gives a listing of a flat program if and only if the program begins with
well-formed lines up to an end directive.  The listing holds these lines, each behind the space of
the lines before it, and their labels in order. -/
theorem listed_iff_wellFormed (layout : Layout) (hl : layout ≠ .sectioned) (table : OpTable)
    (ht : table.Sized layout) (i : Int) (program : List Line) (rows : List Row)
    (symbols : Symbols) :
    listProgram ⟨layout, .twoPass⟩ table (.ofIndex i) program = .ok (.listed rows symbols) ↔
      ∃ first body last rest, program = first :: (body ++ last :: rest) ∧
        WellFormedProgram layout table (Dialect.heeded ⟨layout, .twoPass⟩ (.ofIndex i)) first
          body last ∧
        rows = ⟨layout.load first, first, none⟩ :: rowsFrom layout table (layout.load first)
          (body ++ [last]) ∧
        symbols = .flat
          ⟨labelEntries (rowsFrom layout table (layout.load first) (body ++ [last]))⟩ := by
  rw [listProgram_flat hl, TwoPass.Flat.list_eq_listed_iff]
  refine exists_congr fun first => exists_congr fun body => exists_congr fun last =>
    exists_congr fun rest => ?_
  rw [flatProgram_iff_wellFormed hl ht]
  refine and_congr_right fun _ => and_congr_right fun h => ?_
  have hextent := ((flatProgram_iff_wellFormed hl ht).2 h).body_fits.extent_eq_space
  have hrows :
      (flatRows layout table first body).map (·.1) ++
        [⟨flatEnd layout table first body, last, none⟩] = rowsFrom layout table (layout.load first)
          (body ++ [last]) := by
    rw [flatRows, placed_eq_rowsFrom hextent, flatEnd, extentOf_eq_spaceOf hextent, rowsFrom_concat]
  have hnames : (TwoPass.Flat.listedNames layout table first body last).mapValues some =
      ⟨labelEntries (rowsFrom layout table (layout.load first) (body ++ [last]))⟩ := by
    have hentries :=
      @entries_noteNames ∅ (rowsFrom layout table (layout.load first) (body ++ [last]))
        (by rw [rowsFrom_map_line]; exact h.labels) (by simp)
    rw [TwoPass.Flat.listedNames, hrows]
    exact congrArg OrderedMap.mk hentries
  rw [TwoPass.Flat.listedRows, hrows, hnames]

/-- A program at an address of its own, with lines of every kind and a line behind its end. -/
def loadedProgram : List Line :=
  [⟨some "P", ⟨"START", [.number 16]⟩⟩, ⟨some "A", ⟨"WORD", [.hex "1aB"]⟩⟩,
    ⟨none, ⟨"RESW", [.number 2]⟩⟩, ⟨some "B", ⟨"BYTE", [.chars "xy"]⟩⟩,
    ⟨some "", ⟨"ADD", [.register 1, .register 2]⟩⟩, ⟨some "C", ⟨"JMP", [.direct "D"]⟩⟩,
    ⟨some "E", ⟨"END", []⟩⟩, ⟨some "A", ⟨"WORD", []⟩⟩]

theorem loadedProgram_wellFormed :
    OpTable.Sized .absolute (.ofTriples [("ADD", 3, 2), ("JMP", 1, 4)]) ∧
      ∃ rows, listProgram ⟨.absolute, .twoPass⟩ (.ofTriples [("ADD", 3, 2), ("JMP", 1, 4)])
          (.ofIndex 1) loadedProgram =
            .ok (.listed rows
              (.flat ⟨[("A", some 16), ("B", some 28), ("C", some 32), ("E", some 36)]⟩)) ∧
        ∃ first body last rest, loadedProgram = first :: (body ++ last :: rest) ∧
          WellFormedProgram .absolute (.ofTriples [("ADD", 3, 2), ("JMP", 1, 4)]) .both first
            body last ∧
          rows = ⟨16, first, none⟩ ::
            rowsFrom .absolute (.ofTriples [("ADD", 3, 2), ("JMP", 1, 4)]) 16 (body ++ [last]) := by
  have ht : OpTable.Sized .absolute (.ofTriples [("ADD", 3, 2), ("JMP", 1, 4)]) :=
    OpTable.sized_of_forall (by decide +kernel)
  obtain ⟨rows, h⟩ :
      ∃ rows, listProgram ⟨.absolute, .twoPass⟩ (.ofTriples [("ADD", 3, 2), ("JMP", 1, 4)])
        (.ofIndex 1) loadedProgram =
          .ok (.listed rows
            (.flat ⟨[("A", some 16), ("B", some 28), ("C", some 32), ("E", some 36)]⟩)) := ⟨_, rfl⟩
  obtain ⟨first, body, last, rest, hcut, hprog, hrows, -⟩ :=
    (listed_iff_wellFormed .absolute (by decide) _ ht 1 loadedProgram rows _).1 h
  have hload : Layout.load .absolute first = 16 := by rw [← (List.cons.inj hcut).1]; rfl
  rw [hload] at hrows
  exact ⟨ht, rows, h, first, body, last, rest, hcut, hprog, hrows⟩

end Assembler
