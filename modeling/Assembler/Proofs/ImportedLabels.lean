import Assembler.Proofs.BackPatching

/-! # Imported names that lines carry

In one pass a label looks at the address its name has, and an import directive at the linkage.
Neither sees the other, so a name can be imported and carried by a line of one section.  The address
of a name is that of the line which carries it, unless an import comes behind (`Labelled`); an
imported name has an address if and only if a line behind the import carries it
(`imported_iff_unaddressed_iff`). -/

namespace Assembler.OnePass
set_option autoImplicit false

/-! ## The address of a name -/

/-- A row at the address carries the name, and no row behind it imports the name. -/
def Labelled (rs : List Row) (x : String) (a : Int) : Prop :=
  ∃ pre q post, rs = pre ++ q :: post ∧ q.line.name? = some x ∧ q.address = a ∧ ∀ r ∈ post,
    ¬ r.line.Imports x

/-- A row carries the name behind a row that imports it. -/
def CarriedBehindImport (rs : List Row) (x : String) : Prop :=
  ∃ pre r post, rs = pre ++ r :: post ∧ r.line.Imports x ∧ ∃ q ∈ post, q.line.name? = some x

variable {table : OpTable} {rs : List Row} {r : Row} {x : String} {a : Int}

theorem labelled_concat : Labelled (rs ++ [r]) x a ↔
    (r.line.name? = some x ∧ r.address = a) ∨ (¬ r.line.Imports x ∧ Labelled rs x a) := by
  constructor
  · intro h
    obtain ⟨pre, q, post, heq, hname, haddr, himp⟩ := h
    cases List.eq_nil_or_concat post with
    | inl hnil =>
      subst hnil
      obtain ⟨-, hq⟩ := List.append_inj' heq rfl
      cases hq
      exact .inl ⟨hname, haddr⟩
    | inr hconcat =>
      obtain ⟨post', q', hpost⟩ := hconcat
      rw [List.concat_eq_append] at hpost
      subst hpost
      rw [← List.cons_append, ← List.append_assoc] at heq
      obtain ⟨hrs, hq⟩ := List.append_inj' heq rfl
      cases hq
      exact .inr ⟨himp r (by simp), pre, q, post', hrs, hname, haddr,
        fun q' hq' => himp q' (List.mem_append_left _ hq')⟩
  · intro h
    cases h with
    | inl h => exact ⟨rs, r, [], rfl, h.1, h.2, by simp⟩
    | inr h =>
      obtain ⟨hr, pre, q, post, hrs, hname, haddr, himp⟩ := h
      refine ⟨pre, q, post ++ [r], by simp [hrs], hname, haddr, fun q' hq' => ?_⟩
      cases List.mem_append.1 hq' with
      | inl hmem => exact himp q' hmem
      | inr hmem =>
        rw [List.mem_singleton.1 hmem]
        exact hr

theorem address?_afterRows_eq_some_iff (h : NameTable.TakesAll table rs) :
    (NameTable.afterRows .onePass table (fun _ => none) rs).address? x = some a ↔
      Labelled rs x a := by
  induction rs using List.reverseRecOn with
  | nil =>
    constructor
    · intro hnone
      cases hnone
    · intro hlabelled
      obtain ⟨pre, q, post, heq, -⟩ := hlabelled
      simp at heq
  | append_singleton rs r ih =>
    have ih := ih h.left
    have htakes := h rs r [] rfl
    rw [labelled_concat, NameTable.afterRows_append, NameTable.afterRows, NameTable.afterRows, ← ih]
    by_cases hr : r.line.Imports x
    · have hbare := (htakes.linkage x (.inr hr)).1
      have hexp : ¬ r.line.Exports x := fun hexp => hexp.not_imports hr
      simp [NameTable.address?, NameTable.after, hexp, hr, hbare]
    · rw [NameTable.address?_after hr]
      by_cases hname : r.line.name? = some x
      · have hnone := htakes.label x hname
        simp [hname, hr, hnone]
      · simp [hname, hr]

theorem carriedBehindImport_iff (h : NameTable.TakesAll table rs) :
    CarriedBehindImport rs x ↔ (∃ q ∈ rs, q.line.Imports x) ∧ ∃ a, Labelled rs x a := by
  constructor
  · intro hcarried
    obtain ⟨pre, r, post, hrs, hr, q, hq, hname⟩ := hcarried
    refine ⟨⟨r, by simp [hrs], hr⟩, q.address, ?_⟩
    obtain ⟨mid, rest, rfl⟩ := List.append_of_mem hq
    refine ⟨pre ++ r :: mid, q, rest, by simp [hrs], hname, rfl, fun q' hq' hi => ?_⟩
    obtain ⟨front, back, rfl⟩ := List.append_of_mem hq'
    have hcut : rs = (pre ++ r :: (mid ++ q :: front)) ++ q' :: back := by simp [hrs]
    exact (hcut ▸ h).not_imports (by simp) hr hi
  · intro hboth
    obtain ⟨⟨r, hmem, hr⟩, a, pre, q, post, hrs, hname, -, hpost⟩ := hboth
    rw [hrs, List.mem_append, List.mem_cons] at hmem
    obtain hmem | rfl | hmem := hmem
    · obtain ⟨front, mid, rfl⟩ := List.append_of_mem hmem
      exact ⟨front, r, mid ++ q :: post, by simp [hrs], hr, q, by simp, hname⟩
    · have hbare := ((h pre r post hrs).linkage x (.inr hr)).1
      rw [hbare] at hname
      cases hname
    · exact absurd hr (hpost r hmem)

/-! ## The names of a section -/

namespace Sectioned

variable {use : NameUse} {sec : ControlSection} {e : Entry (Option Int)}

theorem SectionFits.exists_labelled (h : SectionFits table use sec)
    (he : sec.names .onePass table x = some e)
    (himp : ∀ q ∈ sec.nameRows table, ¬ q.line.Imports x) :
    ∃ a, Labelled (sec.nameRows table) x a := by
  have hmet :
      (NameTable.afterRows .onePass table (fun _ => none) (sec.nameRows table) x).isSome =
        true := by
    show (sec.names .onePass table x).isSome = true
    rw [he]
    rfl
  obtain ⟨q, hq, hname⟩ := h.exists_label (List.append_nil _).symm himp hmet
  obtain ⟨pre, post, hcut⟩ := List.append_of_mem hq
  refine ⟨q.address, pre, q, post, hcut, hname, rfl, fun r hr => himp r ?_⟩
  rw [hcut]
  exact List.mem_append_right _ (List.mem_cons_of_mem _ hr)

theorem SectionFits.name (h : SectionFits table use sec)
    (he : sec.names .onePass table x = some e) :
    (e.linkage = some .imported ↔ ∃ r ∈ sec.nameRows table, r.line.Imports x) ∧
      (∀ a, e.address = some a ↔ Labelled (sec.nameRows table) x a) ∧
      (e.address = none → e.linkage = some .imported) ∧
      ((e.linkage = some .imported ↔ e.address = none) ↔
        ¬ CarriedBehindImport (sec.nameRows table) x) := by
  have hlinkage : e.linkage = some .imported ↔ ∃ r ∈ sec.nameRows table, r.line.Imports x := by
    have himported : (sec.names .onePass table).Imported x ↔ ∃ r ∈ sec.nameRows table,
        r.line.Imports x :=
      NameTable.imported_afterRows_empty
    rwa [NameTable.Imported, NameTable.linkage?, he] at himported
  have haddress : ∀ a, e.address = some a ↔ Labelled (sec.nameRows table) x a := by
    intro a
    have haddress : (sec.names .onePass table).address? x = some a ↔
        Labelled (sec.nameRows table) x a :=
      address?_afterRows_eq_some_iff h.taken
    rwa [NameTable.address?, he] at haddress
  have hnone : e.address = none → e.linkage = some .imported := by
    intro hnone
    by_contra hl
    obtain ⟨a, ha⟩ := h.exists_labelled he fun q hq hx => hl (hlinkage.2 ⟨q, hq, hx⟩)
    rw [(haddress a).2 ha] at hnone
    cases hnone
  refine ⟨hlinkage, haddress, hnone, ?_⟩
  have hsome : (∃ a, Labelled (sec.nameRows table) x a) ↔ e.address ≠ none := by
    rw [Option.ne_none_iff_exists']
    exact exists_congr fun a => (haddress a).symm
  rw [carriedBehindImport_iff h.taken, ← hlinkage, hsome]
  tauto

theorem exists_of_tableOf {secs : List ControlSection} {k : Option String} {N : NameTable}
    (h : tableOf (tablesOf .onePass table secs) k = some N) :
    ∃ sec ∈ secs, sec.opener.label = k ∧ sec.names .onePass table = N := by
  obtain ⟨sec, hsec, heq⟩ := List.mem_map.1 (mem_of_tableOf h)
  exact ⟨sec, hsec, congrArg Prod.fst heq, congrArg Prod.snd heq⟩

end Sectioned

/-- In a sectioned program that one pass accepts, a name of a section is marked as imported if and
only if a line imports it, and it has an address if and only if a line carries it with no import
behind.  A name without an address is imported.  The converse holds if and only if no line carries
the name behind its import: nothing keeps the two apart. -/
theorem imported_iff_unaddressed_iff (table : OpTable) (ht : table.Sized .sectioned) (i : Int)
    (program : List Line) (v : Snapshot)
    (hfault : (traceProgram .sectioned table (.ofIndex i) program).fault = none)
    (hlast : (traceProgram .sectioned table (.ofIndex i) program).snapshots.getLast? = some v)
    (hfound : v.found = []) :
    ∃ sections, v.symbols = .sectioned sections ∧ ∀ k ns, sections.get? k = some ns →
      ∃ sec ∈ controlSections program, sec.opener.label = k ∧ ∀ x e, ns.get? x = some e →
        (e.linkage = some .imported ↔ ∃ r ∈ sec.nameRows table, r.line.Imports x) ∧
        (∀ a, e.address = some a ↔ Labelled (sec.nameRows table) x a) ∧
        (e.address = none → e.linkage = some .imported) ∧
        ((e.linkage = some .imported ↔ e.address = none) ↔
          ¬ CarriedBehindImport (sec.nameRows table) x) := by
  obtain ⟨rs, hrs⟩ := Sectioned.records_of_found hfault hlast hfound
  obtain ⟨-, hfits, sections, hsymbols, htables⟩ := Sectioned.of_trace ht hfault hlast hrs
  refine ⟨sections, hsymbols, fun k ns hns => ?_⟩
  have htable := htables k
  rw [hns, Option.map_some] at htable
  obtain ⟨sec, hsec, hlabel, hnames⟩ := Sectioned.exists_of_tableOf htable.symm
  refine ⟨sec, hsec, hlabel, fun x e he => (hfits sec hsec).name ?_⟩
  rw [hnames]
  exact he

/-- A name imported in front of its label, and in another section a label in front of its import. -/
def importedLabels : List Line :=
  [⟨some "P", ⟨"START", []⟩⟩, ⟨none, ⟨"EXTREF", [.direct "X"]⟩⟩, ⟨some "X", ⟨"NOP", []⟩⟩,
    ⟨some "Q", ⟨"CSECT", []⟩⟩, ⟨some "Y", ⟨"NOP", []⟩⟩, ⟨none, ⟨"EXTREF", [.direct "Y"]⟩⟩,
    ⟨none, ⟨"END", []⟩⟩]

/-- Both sections are accepted.  The first name is imported and has an address, the second has lost
its address. -/
theorem importedLabels_accepted :
    (OpTable.ofTriples [("NOP", 1, 1)]).Sized .sectioned ∧
      ∃ v sections names names',
      (traceProgram .sectioned (.ofTriples [("NOP", 1, 1)]) (.ofIndex 2) importedLabels).fault =
        none ∧
        (traceProgram .sectioned (.ofTriples [("NOP", 1, 1)])
          (.ofIndex 2) importedLabels).snapshots.getLast? = some v ∧
        v.found = [] ∧ v.symbols = .sectioned sections ∧ sections.get? (some "P") = some names ∧
        sections.get? (some "Q") = some names' ∧ names.get? "X" = some ⟨some 0, some .imported⟩ ∧
        names'.get? "Y" = some ⟨none, some .imported⟩ ∧
        ∃ sec ∈ controlSections importedLabels,
        CarriedBehindImport (sec.nameRows (.ofTriples [("NOP", 1, 1)])) "X" := by
  have ht : (OpTable.ofTriples [("NOP", 1, 1)]).Sized .sectioned :=
    OpTable.sized_of_forall (by decide +kernel)
  obtain ⟨v, sections, names, names', hfault, hlast, hfound, hsymbols, hp, hq, hx, hy⟩ :
      ∃ v sections names names',
        (traceProgram .sectioned (.ofTriples [("NOP", 1, 1)]) (.ofIndex 2) importedLabels).fault =
          none ∧
        (traceProgram .sectioned (.ofTriples [("NOP", 1, 1)])
          (.ofIndex 2) importedLabels).snapshots.getLast? = some v ∧
        v.found = [] ∧ v.symbols = .sectioned sections ∧ sections.get? (some "P") = some names ∧
        sections.get? (some "Q") = some names' ∧ names.get? "X" = some ⟨some 0, some .imported⟩ ∧
        names'.get? "Y" = some ⟨none, some .imported⟩ :=
    ⟨_, _, _, _, rfl, rfl, rfl, rfl, rfl, rfl, rfl, rfl⟩
  refine ⟨ht, v, sections, names, names', hfault, hlast, hfound, hsymbols, hp, hq, hx, hy, ?_⟩
  obtain ⟨sections', hsymbols', hall⟩ :=
    imported_iff_unaddressed_iff _ ht 2 importedLabels v hfault hlast hfound
  obtain rfl : sections' = sections := by
    rw [hsymbols] at hsymbols'
    cases hsymbols'
    rfl
  obtain ⟨sec, hsec, -, hnames⟩ := hall _ _ hp
  obtain ⟨-, -, -, hiff⟩ := hnames _ _ hx
  refine ⟨sec, hsec, ?_⟩
  by_contra hno
  have hnone := (hiff.2 hno).1 rfl
  cases hnone

end Assembler.OnePass
