import Assembler.Proofs.AbsolutePass
import Assembler.Proofs.RelocatablePass

/-! # One pass and two passes agree on flat programs

Both accept exactly the programs that nothing is wrong with and whose operands have digits
(`FlatProgram`, `Resolved`), and both give the records of the placed lines. -/

namespace Assembler
set_option autoImplicit false

/-! ## Absolute programs -/

section

variable {table : OpTable} {use use' : NameUse} {a : Int} {l : Line}

theorem nameUseProblems_absolute (hu : use ≠ .relativeOnly) {size : Int}
    (hs : size ∈ Layout.absolute.commandSizes) {ops : List Operand} (h : Admitted size ops) :
    nameUseProblems use ops = [] := by
  have hrel : ops.any (·.kind == .relative) = false := by
    cases h with
    | character op hop hle => cases op <;> first | rfl | cases hop
    | text op v hop hv hm => cases op <;> first | rfl | cases hop
    | distance x => simp [Layout.commandSizes, absoluteSizes] at hs
    | _ => rfl
  simp [nameUseProblems, hrel, hu]

theorem Line.Fits.absolute (ht : table.Sized .absolute) (hu : use' ≠ .relativeOnly)
    (h : l.Fits .absolute table use a) :
    l.Fits .absolute table use' a := by
  unfold Line.Fits
  rcases h.cases with ⟨kind, al, hk, hal⟩ | ⟨op, hop, hc, -⟩
  · rw [hk]
    exact ⟨al, hal⟩
  · rw [hop]
    have hs := ht.mem_commandSizes hop
    exact ⟨hc, nameUseProblems_absolute hu hs ((commandProblems_eq_nil_iff hs _ _ _).1 hc).1⟩

theorem FlatProgram.absolute (ht : table.Sized .absolute) (hu : use' ≠ .relativeOnly) {first : Line}
    {body : List Line} {last : Line} (h : FlatProgram .absolute table use first body last) :
    FlatProgram .absolute table use' first body last :=
  { h with body_fits := h.body_fits.imp fun _ _ _ hl => { hl with fits := hl.fits.absolute ht hu } }

end

theorem NameUse.ofIndex_ne_relativeOnly {i : Int} (h : i ≠ 1) :
    NameUse.ofIndex i ≠ .relativeOnly := by
  unfold NameUse.ofIndex
  rw [if_neg h]
  split <;> nofun

/-- One pass over an absolute program accepts what two passes accept, and gives object code that
agrees record by record and the same symbols.  The sizes are those of absolute programs, and no
operation has the name of a directive.  (The second choice of name use forbids direct names in one
pass only.) -/
theorem absolute_onePass_agrees (table : OpTable) (ht : table.Sized .absolute)
    (hav : table.Avoids flatDirectives) (i : Int) (hi : i ≠ 1) (program : List Line) :
    ((∃ rows symbols records written,
        assembleTwice ⟨.absolute, .twoPass⟩ table (.ofIndex i) program =
          .ok (.listed rows symbols, some (.ok (.made records written)))) ↔
      ∃ v, (traceProgram .absolute table (.ofIndex i) program).fault = none ∧
        (traceProgram .absolute table (.ofIndex i) program).snapshots.getLast? = some v ∧
        v.records.isSome = true) ∧
    ∀ rows symbols records written v records',
      assembleTwice ⟨.absolute, .twoPass⟩ table (.ofIndex i) program =
        .ok (.listed rows symbols, some (.ok (.made records written))) →
      (traceProgram .absolute table (.ofIndex i) program).snapshots.getLast? = some v →
      v.records = some records' →
      List.Forall₂
        (fun r r' => (r.fields (Dialect.codeStyle ⟨.absolute, .twoPass⟩)).Agree
          (r'.fields (Layout.traceStyle .absolute))) records records' ∧ symbols.Same v.symbols := by
  have hu := NameUse.ofIndex_ne_relativeOnly hi
  have htwo :=
    assembleTwice_made_iff (by decide : Layout.absolute ≠ .sectioned) ht hav (.ofIndex i) program
  refine ⟨⟨?_, ?_⟩, ?_⟩
  · rintro ⟨rows, symbols, records, written, h⟩
    obtain ⟨first, body, last, rest, rfl, hprog, hres, -⟩ := (htwo _ _ _ _).1 h
    obtain ⟨v, rs, hfault, hlast, hrs⟩ :=
      OnePass.Absolute.trace_of ht rest (hprog.absolute ht hu) hres
    exact ⟨v, hfault, hlast, by simp [hrs]⟩
  · rintro ⟨v, hfault, hlast, hsome⟩
    obtain ⟨rs, hrs⟩ := Option.isSome_iff_exists.1 hsome
    obtain ⟨first, body, last, rest, rfl, hprog, hres, -⟩ :=
      OnePass.Absolute.of_trace ht hfault hlast hrs
    have hboth : Dialect.heeded ⟨.absolute, .twoPass⟩ (.ofIndex i) ≠ .relativeOnly := by
      simp [Dialect.heeded, Dialect.absoluteTwoPass]
    exact ⟨_, _, _, _, (htwo _ _ _ _).2
      ⟨first, body, last, rest, rfl, hprog.absolute ht hboth, hres, rfl, rfl, rfl, rfl⟩⟩
  · intro rows symbols records written v records' h hlast hrs
    obtain ⟨first, body, last, rest, rfl, hprog, hres, -, rfl, rfl, -⟩ := (htwo _ _ _ _).1 h
    obtain ⟨-, -, hfault, -, -⟩ := OnePass.Absolute.trace_of ht rest (hprog.absolute ht hu) hres
    obtain ⟨first', body', last', rest', heq, hprog', -, s, n, hstage, rfl, hsym⟩ :=
      OnePass.Absolute.of_trace ht hfault hlast hrs
    obtain ⟨rfl, rfl, rfl⟩ := hprog.unique hprog' heq
    refine ⟨hstage.agree n, ?_⟩
    obtain ⟨-, hclosed, -⟩ := (OnePass.resolved_iff ht hprog.body_fits).1 hres
    rw [hsym]
    intro x
    rw [OrderedMap.get?_mapValues, TwoPass.Flat.get?_listedNames,
      (hstage.ledger.get?_of_closed hclosed x).1]

def addressTable : OpTable := .ofTriples [("JMP", 1, 4), ("LD", 2, 4), ("ADD", 3, 2)]

/-- An absolute program with references forward and back. -/
def absoluteJumps : List Line :=
  [⟨some "P", ⟨"START", [.number 256]⟩⟩, ⟨some "A", ⟨"LD", [.direct "X"]⟩⟩,
    ⟨none, ⟨"JMP", [.direct "A"]⟩⟩, ⟨none, ⟨"ADD", [.register 1, .register 10]⟩⟩,
    ⟨some "X", ⟨"WORD", [.number 300]⟩⟩, ⟨none, ⟨"LD", [.direct "X"]⟩⟩,
    ⟨none, ⟨"END", [.number 260]⟩⟩]

theorem absoluteJumps_agree :
    addressTable.Sized .absolute ∧ addressTable.Avoids flatDirectives ∧
      ∃ rows symbols records written v records',
        assembleTwice ⟨.absolute, .twoPass⟩ addressTable (.ofIndex 0) absoluteJumps =
          .ok (.listed rows symbols, some (.ok (.made records written))) ∧
        (traceProgram .absolute addressTable (.ofIndex 0) absoluteJumps).snapshots.getLast? =
          some v ∧
        v.records = some records' ∧
        List.Forall₂ (fun r r' =>
          (r.fields (Dialect.codeStyle ⟨.absolute, .twoPass⟩)).Agree
            (r'.fields (Layout.traceStyle .absolute))) records records' ∧
        symbols.Same v.symbols := by
  have ht : addressTable.Sized .absolute := OpTable.sized_of_forall (by decide +kernel)
  have hav : addressTable.Avoids flatDirectives := by unfold OpTable.Avoids; decide +kernel
  exact ⟨ht, hav, _, _, _, _, _, _, rfl, rfl, rfl,
    (absolute_onePass_agrees addressTable ht hav 0 (by decide) absoluteJumps).2 _ _ _ _ _ _ rfl
      rfl rfl⟩

/-! ## Relocatable programs -/

/-- One pass over a relocatable program in which no label is given twice accepts what two passes
accept, and gives object code that agrees record by record and the same symbols, for each choice of
name use.  No operation has the name of a directive.  (A label at address zero may be given again in
one pass.) -/
theorem relocatable_onePass_agrees (table : OpTable) (ht : table.Sized .relocatable)
    (hav : table.Avoids flatDirectives) (i : Int) (program : List Line)
    (hd : OnePass.Relocatable.DistinctLabels program) :
    ((∃ rows symbols records written,
        assembleTwice ⟨.relocatable, .twoPass⟩ table (.ofIndex i) program =
          .ok (.listed rows symbols, some (.ok (.made records written)))) ↔
      ∃ v, (traceProgram .relocatable table (.ofIndex i) program).fault = none ∧
        (traceProgram .relocatable table (.ofIndex i) program).snapshots.getLast? = some v ∧
        v.records.isSome = true) ∧
    ∀ rows symbols records written v records',
      assembleTwice ⟨.relocatable, .twoPass⟩ table (.ofIndex i) program =
        .ok (.listed rows symbols, some (.ok (.made records written))) →
      (traceProgram .relocatable table (.ofIndex i) program).snapshots.getLast? = some v →
      v.records = some records' →
      List.Forall₂ (fun r r' =>
        (r.fields (Dialect.codeStyle ⟨.relocatable, .twoPass⟩)).Agree
          (r'.fields (Layout.traceStyle .relocatable)))
        records records' ∧ symbols.Same v.symbols := by
  have htwo :=
    assembleTwice_made_iff (by decide : Layout.relocatable ≠ .sectioned) ht hav (.ofIndex i) program
  have hheeded : Dialect.heeded ⟨.relocatable, .twoPass⟩ (.ofIndex i) = .ofIndex i :=
    if_neg (by decide)
  rw [hheeded] at htwo
  refine ⟨⟨?_, ?_⟩, ?_⟩
  · rintro ⟨rows, symbols, records, written, h⟩
    obtain ⟨first, body, last, rest, rfl, hprog, hres, -⟩ := (htwo _ _ _ _).1 h
    obtain ⟨v, rs, hfault, hlast, hrs⟩ := OnePass.Relocatable.trace_of ht rest hprog hres
    exact ⟨v, hfault, hlast, by simp [hrs]⟩
  · rintro ⟨v, hfault, hlast, hsome⟩
    obtain ⟨rs, hrs⟩ := Option.isSome_iff_exists.1 hsome
    obtain ⟨first, body, last, rest, rfl, hprog, hres, -⟩ :=
      OnePass.Relocatable.of_trace ht hd hfault hlast hrs
    exact ⟨_, _, _, _,
      (htwo _ _ _ _).2 ⟨first, body, last, rest, rfl, hprog, hres, rfl, rfl, rfl, rfl⟩⟩
  · intro rows symbols records written v records' h hlast hrs
    obtain ⟨first, body, last, rest, rfl, hprog, hres, -, rfl, rfl, -⟩ := (htwo _ _ _ _).1 h
    obtain ⟨-, -, hfault, -, -⟩ := OnePass.Relocatable.trace_of ht rest hprog hres
    obtain ⟨first', body', last', rest', heq, hprog', -, rfl, names, hsym, hnames⟩ :=
      OnePass.Relocatable.of_trace ht hd hfault hlast hrs
    obtain ⟨rfl, rfl, rfl⟩ := hprog.unique hprog' heq
    refine ⟨List.forall₂_same.2 fun r _ => ObjectRecord.agree_self _ _ r, ?_⟩
    rw [hsym]
    intro x
    rw [OrderedMap.get?_mapValues, TwoPass.Flat.get?_listedNames, hnames]

/-- A relocatable program with direct names and distances, forward and back. -/
def relocatableJumps : List Line :=
  [⟨some "P", ⟨"START", [.number 0]⟩⟩, ⟨some "A", ⟨"JMP", [.direct "X"]⟩⟩,
    ⟨none, ⟨"LDR", [.relative "X"]⟩⟩, ⟨none, ⟨"JMP", [.direct "A"]⟩⟩,
    ⟨none, ⟨"LDR", [.relative "A"]⟩⟩, ⟨none, ⟨"ADD", [.register 1, .register 10]⟩⟩,
    ⟨some "X", ⟨"WORD", [.number 300]⟩⟩, ⟨some "E", ⟨"END", []⟩⟩]

/-- Operations of three sizes, one of them for distances. -/
def distanceTable : OpTable := .ofTriples [("JMP", 1, 4), ("LDR", 2, 3), ("ADD", 3, 2)]

theorem relocatableJumps_agree :
    distanceTable.Sized .relocatable ∧ distanceTable.Avoids flatDirectives ∧
      OnePass.Relocatable.DistinctLabels relocatableJumps ∧
      ∃ rows symbols records written v records',
        assembleTwice ⟨.relocatable, .twoPass⟩ distanceTable (.ofIndex 2) relocatableJumps =
          .ok (.listed rows symbols, some (.ok (.made records written))) ∧
        (traceProgram .relocatable distanceTable (.ofIndex 2) relocatableJumps).snapshots.getLast? =
          some v ∧
        v.records = some records' ∧
        List.Forall₂ (fun r r' =>
          (r.fields (Dialect.codeStyle ⟨.relocatable, .twoPass⟩)).Agree
            (r'.fields (Layout.traceStyle .relocatable)))
          records records' ∧
        symbols.Same v.symbols := by
  have ht : distanceTable.Sized .relocatable := OpTable.sized_of_forall (by decide +kernel)
  have hav : distanceTable.Avoids flatDirectives := by unfold OpTable.Avoids; decide +kernel
  have hd : OnePass.Relocatable.DistinctLabels relocatableJumps := by decide +kernel
  exact ⟨ht, hav, hd, _, _, _, _, _, _, rfl, rfl, rfl,
    (relocatable_onePass_agrees distanceTable ht hav 2 relocatableJumps hd).2 _ _ _ _ _ _ rfl
      rfl rfl⟩

end Assembler
