import Assembler.Proofs.Drafts
import Assembler.Proofs.Sections

/-! # References in control sections

In one pass over a section a command is read from the entry that its name has when the command is
met; a name met for the first time waits for the first line that carries it, and is read from the
entry it has then (`RowContext.entryFor?`).  An exported name waits in the same way.  A name without
an address that is not met for the first time is not waited for. -/

namespace Assembler
set_option autoImplicit false

/-! ## Readings of entries -/

/-- What an entry is worth as a direct name: imported names count as zero. -/
def Entry.direct? (e : Entry (Option Int)) : Option Int :=
  if e.linkage = some .imported then some 0 else e.address

/-- What an entry is worth as a relative name: imported names have no displacement. -/
def Entry.relative? (next : Int) (e : Entry (Option Int)) : Option Int :=
  if e.linkage = some .imported then none else e.address.map (displacement · next)

/-- The reading of entries, before the command at `next`. -/
def Reading.ofEntries (N : NameTable) (next : Int) : Reading :=
  ⟨fun x => (N x).bind Entry.direct?, fun x => (N x).bind (Entry.relative? next)⟩

theorem Directory.entry_ofSections {sections : Sections (Option Int)} {k : Option String}
    {ns : SectionNames (Option Int)} (h : sections.get? k = some ns) (x : String) :
    (Directory.ofSections sections).entry k x =
      match ns.get? x with
      | some e => .ok ⟨Value.ofAddress? e.address, e.linkage⟩
      | none => .error (.missingKey (some x)) := by
  simp only [Directory.ofSections, Directory.entry, OrderedMap.get?_mapValues, h, Option.map_some]
  cases ns.get? x <;> rfl

/-- The scope of a section in one pass knows the names of the section. -/
theorem Scope.linked_knows {sections : Sections (Option Int)} {k : Option String}
    {ns : SectionNames (Option Int)} (h : sections.get? k = some ns) (next : Int) :
    (Scope.ofDialect ⟨.sectioned, .onePass⟩ (.ofSections sections) k next).Knows
      (.ofEntries ns.get? next) fun _ => True := by
  have hentry := Directory.entry_ofSections h
  constructor
  · intro x v hx
    simp only [ofDialect, linkedDirect, hentry]
    cases hn : ns.get? x with
    | none => simp [Reading.ofEntries, hn] at hx
    | some e =>
      simp only [Reading.ofEntries, hn, Option.bind_some, Entry.direct?] at hx
      split at hx
      · next hi => cases hx; simp [hi]
      · next hi => simp [hi, hx, Value.ofAddress?]
  · intro x v hx
    simp only [ofDialect, linkedRelative, hentry]
    cases hn : ns.get? x with
    | none => simp [Reading.ofEntries, hn] at hx
    | some e =>
      simp only [Reading.ofEntries, hn, Option.bind_some, Entry.relative?] at hx
      split at hx
      · cases hx
      · next hi =>
        obtain ⟨b, hb, rfl⟩ := Option.map_eq_some_iff.1 hx
        simp [hi, hb, Value.ofAddress?]
  · intro x hx
    simp only [ofDialect, linkedDirect, hentry, and_true]
    cases hn : ns.get? x with
    | none => exact ⟨_, rfl⟩
    | some e =>
      simp only [Reading.ofEntries, hn, Option.bind_some, Entry.direct?] at hx
      split at hx
      · cases hx
      · next hi => exact ⟨_, by simp [hi, hx, Value.ofAddress?]; rfl⟩
  · intro x hx
    simp only [ofDialect, linkedRelative, hentry, and_true]
    cases hn : ns.get? x with
    | none => exact ⟨_, rfl⟩
    | some e =>
      simp only [Reading.ofEntries, hn, Option.bind_some, Entry.relative?] at hx
      split at hx
      · next hi => exact ⟨_, by simp [hi]; rfl⟩
      · next hi => exact ⟨_, by simp [hi, Option.map_eq_none_iff.1 hx, Value.ofAddress?]; rfl⟩

theorem Scope.linkedRelative_imported {sections : Sections (Option Int)} {k : Option String}
    {ns : SectionNames (Option Int)} (h : sections.get? k = some ns) {x : String}
    (hx : NameTable.Imported ns.get? x) (next : Int) :
    (Scope.ofDialect ⟨.sectioned, .onePass⟩ (.ofSections sections) k next).relative x =
      .error .importedDisplacement := by
  simp only [ofDialect, linkedRelative, Directory.entry_ofSections h]
  cases hn : ns.get? x with
  | none => simp [NameTable.Imported, NameTable.linkage?, hn] at hx
  | some e =>
    have he : e.linkage = some .imported := by
      simpa [NameTable.Imported, NameTable.linkage?, hn] using hx
    simp [he]

namespace OnePass

/-- The entry of a name at the first of some rows that carries it. -/
def firstEntry (table : OpTable) (x : String) : NameTable → List Row → Option (Entry (Option Int))
  | _, [] => none
  | N, r :: rs =>
    if r.line.name? = some x then N.label r.address r.line x
    else firstEntry table x (N.after .onePass table r.address r.line) rs

section

variable {table : OpTable} {x : String} {N : NameTable} {rs : List Row}

theorem firstEntry_eq_none_iff : firstEntry table x N rs = none ↔
    ∀ r ∈ rs, r.line.name? ≠ some x := by
  induction rs generalizing N with
  | nil => simp [firstEntry]
  | cons r rs ih =>
    rw [firstEntry]
    split
    · next h => simp [NameTable.label_self h, h]
    · next h => simp [ih, h]

theorem firstEntry_concat (r : Row) : firstEntry table x N (rs ++ [r]) =
    (firstEntry table x N rs).or
      (if r.line.name? = some x
        then (NameTable.afterRows .onePass table N rs).label r.address r.line x else none) := by
  induction rs generalizing N with
  | nil => simp [firstEntry, NameTable.afterRows]
  | cons q rs ih =>
    rw [List.cons_append, firstEntry, firstEntry, ih]
    split
    · next h => simp [NameTable.label_self h]
    · rfl

end

/-- A row of a section in one pass: the names before it, the row with the space it takes, and the
rows behind it so far. -/
structure RowContext where
  before : NameTable
  row : Row × Int
  later : List Row

namespace RowContext

abbrev line (c : RowContext) : Line := c.row.1.line

/-- The names when the row is read: its own label is noted. -/
def here (c : RowContext) : NameTable := c.before.label c.row.1.address c.line

def after (table : OpTable) (c : RowContext) : NameTable :=
  c.before.after .onePass table c.row.1.address c.line

/-- The entry that a name of the row is read from: the one at hand, or if there is none the one of
the first row behind that carries the name.  An exported name is always read from a row behind. -/
def entryFor? (table : OpTable) (c : RowContext) : NameTable := fun x =>
  if c.line.Exports x then firstEntry table x (c.after table) c.later
  else (c.here x).or (firstEntry table x (c.after table) c.later)

def Awaits (table : OpTable) (x : String) (c : RowContext) : Prop :=
  (c.line.Exports x ∨ c.line.RefersTo table x) ∧ c.entryFor? table x = none

instance (table : OpTable) (x : String) : DecidablePred (Awaits table x) :=
  fun _ => inferInstanceAs (Decidable (_ ∧ _))

/-- The values that the row is read with. -/
def reading (table : OpTable) (c : RowContext) : Reading :=
  .ofEntries (c.entryFor? table) (c.row.1.address + c.row.2)

def draft (table : OpTable) (c : RowContext) : Draft :=
  match Statement.ofMnemonic .sectioned table c.line.mnemonic with
  | .command op =>
    .code c.row.1.address op.size (some (codeByte op.opcode c.line.operands))
      (c.line.operands.map (·.settled (c.reading table)))
  | .storage kind => storageDraft c.row.1.address c.row.2 (kind.digits? c.line.operands)
  | .exportName =>
    .definition (.direct ((onlyName? c.line.operands).getD ""))
      (c.line.operands.map (·.settled (c.reading table)))
  | .importName => .reference ((onlyName? c.line.operands).getD "")
  | _ => .space c.row.1.address c.row.2

def record (table : OpTable) (c : RowContext) : ObjectRecord :=
  linkedRecord table c.row ((linkedField table (c.reading table) c.row).getD "")

/-- The row with one more row behind it. -/
def extend (r : Row) (c : RowContext) : RowContext := { c with later := c.later ++ [r] }

end RowContext

/-- The rows of a section in one pass, with further rows behind them. -/
def contexts (table : OpTable) : NameTable → List (Row × Int) → List Row → List RowContext
  | _, [], _ => []
  | N, p :: ps, rest =>
    ⟨N, p, ps.map (·.1) ++ rest⟩ :: contexts table
      (N.after .onePass table p.1.address p.1.line) ps rest

section

variable (table : OpTable) (N : NameTable) (ps : List (Row × Int)) (rest : List Row)

theorem contexts_extend (r : Row) :
    contexts table N ps (rest ++ [r]) = (contexts table N ps rest).map (·.extend r) := by
  induction ps generalizing N with
  | nil => rfl
  | cons p ps ih => simp [contexts, ih, RowContext.extend]

theorem contexts_append (p : Row × Int) :
    contexts table N (ps ++ [p]) rest =
      contexts table N ps (p.1 :: rest) ++
        [⟨NameTable.afterRows .onePass table N (ps.map (·.1)), p, rest⟩] := by
  induction ps generalizing N with
  | nil => rfl
  | cons q ps ih => simp [contexts, ih, NameTable.afterRows]

/-- One more row stands behind all the others. -/
theorem contexts_concat (p : Row × Int) :
    contexts table N (ps ++ [p]) [] =
      (contexts table N ps []).map (·.extend p.1) ++
        [⟨NameTable.afterRows .onePass table N (ps.map (·.1)), p, []⟩] := by
  rw [contexts_append, ← contexts_extend, List.nil_append]

theorem contexts_map_row : (contexts table N ps rest).map (·.row) = ps := by
  induction ps generalizing N with
  | nil => rfl
  | cons p ps ih => simp [contexts, ih]

/-- The names behind the last row are the same for every row. -/
theorem afterRows_of_mem_contexts {c : RowContext} (hc : c ∈ contexts table N ps rest) :
    NameTable.afterRows .onePass table (c.after table) c.later =
      NameTable.afterRows .onePass table N (ps.map (·.1) ++ rest) := by
  induction ps generalizing N with
  | nil => cases hc
  | cons p ps ih =>
    rcases List.mem_cons.1 hc with rfl | hc
    · rfl
    · exact ih _ hc

end

/-- A row stands behind the rows that its names come from, before those that are still to come. -/
theorem exists_of_mem_contexts {table : OpTable} {N : NameTable} {ps : List (Row × Int)}
    {rest : List Row} {c : RowContext} (hc : c ∈ contexts table N ps rest) :
    c.row ∈ ps ∧ ∃ pre post, ps.map (·.1) ++ rest = pre ++ c.row.1 :: post ∧
      c = ⟨NameTable.afterRows .onePass table N pre, c.row, post⟩ := by
  induction ps generalizing N with
  | nil => cases hc
  | cons p ps ih =>
    rcases List.mem_cons.1 hc with rfl | hc
    · exact ⟨List.mem_cons_self, [], _, rfl, rfl⟩
    · obtain ⟨hmem, pre, post, hcut, heq⟩ := ih hc
      exact ⟨List.mem_cons_of_mem _ hmem, p.1 :: pre, post, congrArg (p.1 :: ·) hcut, heq⟩

namespace RowContext

variable {table : OpTable} {use : NameUse} {c : RowContext} {r : Row} {x : String}

/-- One more row changes what is read only if it carries the name and nothing was read before. -/
theorem entryFor?_extend : (c.extend r).entryFor? table x = (c.entryFor? table x).or
    (if r.line.name? = some x
      then (NameTable.afterRows .onePass table (c.after table) c.later).label r.address r.line x
        else none) := by
  have hlater : firstEntry table x ((c.extend r).after table) (c.extend r).later = _ :=
    firstEntry_concat r
  have hline : (c.extend r).line = c.line := rfl
  have hhere : (c.extend r).here = c.here := rfl
  unfold entryFor?
  rw [hlater, hline, hhere]
  split
  · rfl
  · rw [Option.or_assoc]
    rfl

theorem awaits_extend : (c.extend r).Awaits table x ↔ c.Awaits table x ∧ r.line.name? ≠ some x := by
  unfold Awaits
  rw [entryFor?_extend, Option.or_eq_none_iff]
  have hline : (c.extend r).line = c.line := rfl
  rw [hline, and_assoc]
  refine and_congr_right fun _ => and_congr_right fun _ => ?_
  split
  · next h => simp [NameTable.label_self h, h]
  · next h => simp [h]

theorem entryFor?_extend_of_not_awaits (hx : c.line.Exports x ∨ c.line.RefersTo table x)
    (h : ¬ (c.Awaits table x ∧ r.line.name? = some x)) :
    (c.extend r).entryFor? table x = c.entryFor? table x := by
  rw [entryFor?_extend]
  cases hc : c.entryFor? table x with
  | some e => rfl
  | none =>
    have hne : r.line.name? ≠ some x := fun hr => h ⟨⟨hx, hc⟩, hr⟩
    simp [hne]

theorem draft_congr (ht : table.Sized .sectioned) (hfit : c.line.LinkFits table use c.row.1.address)
    {c' : RowContext} (hrow : c'.row = c.row)
    (h : ∀ x, c.line.Exports x ∨ c.line.RefersTo table x →
      c'.entryFor? table x = c.entryFor? table x) :
    c'.draft table = c.draft table := by
  have hline : c'.line = c.line := congrArg (·.1.line) hrow
  unfold draft
  rw [hline, hrow]
  generalize hst : Statement.ofMnemonic .sectioned table c.line.mnemonic = st
  have hread : ∀ size, Admitted size c.line.operands →
      (∀ y, c.line.operands = [.direct y] ∨ c.line.operands = [.relative y] →
        c'.entryFor? table y = c.entryFor? table y) →
      c.line.operands.map (·.settled (c'.reading table)) = c.line.operands.map
        (·.settled (c.reading table)) := by
    intro size hadm hy
    refine map_settled_congr hadm (fun y hops => ?_) fun y hops => ?_
    · exact congrArg (Option.bind · _) (hy y (.inl hops))
    · simp only [reading, Reading.ofEntries, hrow, hy y (.inr hops)]
  cases st with
  | command op =>
    have hop : (c.line.operation? table).isSome = true := by
      rw [Line.operation?_eq_some_iff.2 hst]; rfl
    simp only
    rw [hread _ (hfit.admitted ht hst) fun y hy =>
      h y (.inr ⟨hop, by rcases hy with hy | hy <;> rw [hy] <;> rfl⟩)]
  | exportName =>
    obtain ⟨-, y, hy⟩ := hfit.operands_of_export hst
    have hadm : Admitted 4 c.line.operands := by rw [hy]; exact .address y
    simp only
    rw [hread 4 hadm fun z hz =>
      h z (.inl ⟨(Statement.ofMnemonic_eq_exportName_iff _ _).1 hst, ?_⟩)]
    rcases hz with hz | hz
    · rw [hz]; rfl
    · simp [hy] at hz
  | _ => rfl

theorem draft_extend (ht : table.Sized .sectioned)
    (hfit : c.line.LinkFits table use c.row.1.address)
    (h : ∀ x, c.Awaits table x → r.line.name? ≠ some x) :
    (c.extend r).draft table = c.draft table :=
  draft_congr ht hfit rfl fun x hx => entryFor?_extend_of_not_awaits hx fun hw => h x hw.1 hw.2

/-- A row that waits for a name has that name for its operand. -/
theorem Awaits.operands (ht : table.Sized .sectioned)
    (hfit : c.line.LinkFits table use c.row.1.address) (h : c.Awaits table x) :
    c.line.operands = [.direct x] ∨ c.line.operands = [.relative x] := by
  rcases h.1 with ⟨hm, hx⟩ | ⟨hop, hx⟩
  · obtain ⟨-, y, hy⟩ :=
      hfit.operands_of_export ((Statement.ofMnemonic_eq_exportName_iff table _).2 hm)
    rw [hy] at hx ⊢
    exact .inl (by rw [Option.some.inj hx])
  · obtain ⟨op, hop⟩ := Option.isSome_iff_exists.1 hop
    rw [Line.operation?_eq_some_iff] at hop
    rcases hfit with hfit | ⟨hm | hm, -⟩
    · obtain ⟨-, -, ⟨h, -⟩ | ⟨h, -⟩⟩ := command_of_reference ht hfit hx
      · exact .inl h
      · exact .inr h
    · simp [(Statement.ofMnemonic_eq_exportName_iff table _).2 hm] at hop
    · simp [(Statement.ofMnemonic_eq_importName_iff table _).2 hm] at hop

/-- Filling the draft of a row that waits, once a row carries the name, reads it from the entry the
name has then. -/
theorem fill_draft (ht : table.Sized .sectioned) (hp : RowFits table use c.row)
    (hw : c.Awaits table x) (hr : r.line.name? = some x) {scope : Int → Scope}
    {forgive : Fault → Bool} {M : NameTable}
    (hk : ∀ next, (scope next).Knows (.ofEntries M next) fun _ => True)
    (hM : M x = (NameTable.afterRows .onePass table (c.after table) c.later).label r.address r.line
      x) {d : Draft} (h : (c.draft table).fill forgive scope = .ok d) :
        d = (c.extend r).draft table := by
  have hentry : (c.extend r).entryFor? table x = M x := by
    rw [entryFor?_extend, hw.2, if_pos hr, hM, Option.none_or]
  have hops := hw.operands ht hp.fits
  have hopen : c.line.operands.map (·.settled (c.reading table)) = c.line.operands := by
    rcases hops with hops | hops <;>
      simp [hops, Operand.settled, Operand.value?, reading, Reading.ofEntries, hw.2]
  have hline : (c.extend r).line = c.line := rfl
  have hrow : (c.extend r).row = c.row := rfl
  rcases hw.1 with ⟨hm, -⟩ | ⟨hop, -⟩
  · have hst := (Statement.ofMnemonic_eq_exportName_iff table _).2 hm
    have hdirect : c.line.operands = [.direct x] := by
      obtain ⟨-, y, hy⟩ := hp.fits.operands_of_export hst
      rcases hops with hops | hops
      · exact hops
      · simp [hy] at hops
    simp only [draft, hst, hopen, Draft.fill, map_eq_ok_iff, hline] at h ⊢
    obtain ⟨vs, hvs, rfl⟩ := h
    rw [Draft.eq_of_settleAll (hk _) hvs, hdirect]
    simp [Operand.settled, Operand.value?, reading, Reading.ofEntries, hentry]
  · obtain ⟨op, hop⟩ := Option.isSome_iff_exists.1 hop
    have hst := Line.operation?_eq_some_iff.1 hop
    have hsize : c.row.2 = op.size := by rw [hp.extent, extent_of_command hst]
    simp only [draft, hst, hopen, Draft.fill, map_eq_ok_iff, hline, hrow] at h ⊢
    obtain ⟨vs, hvs, rfl⟩ := h
    rw [Draft.eq_of_settleAll (hk _) hvs]
    rcases hops with hops | hops <;>
      simp [hops, Operand.settled, Operand.value?, reading, Reading.ofEntries, hentry, hrow, hsize]

/-- A distance to an imported name cannot be filled in. -/
theorem not_error_of_fill (hw : c.Awaits table x) (hops : c.line.operands = [.relative x])
    (hop : (c.line.operation? table).isSome = true) {scope : Int → Scope} {forgive : Fault → Bool}
    {y : Fault} (hy : forgive y = false) (hscope : ∀ next, (scope next).relative x = .error y)
    {d : Draft} (h : (c.draft table).fill forgive scope = .ok d) : False := by
  obtain ⟨op, hop⟩ := Option.isSome_iff_exists.1 hop
  have hst := Line.operation?_eq_some_iff.1 hop
  have hopen : (Operand.relative x).settled (c.reading table) = .relative x := by
    simp [Operand.settled, Operand.value?, reading, Reading.ofEntries, hw.2]
  simp [draft, hst, hops, hopen, Draft.fill, Draft.settleAll, Draft.settle, Operand.value, hscope,
    hy] at h

/-- The draft of a row gives its record. -/
theorem record_draft (ht : table.Sized .sectioned) (hp : RowFits table use c.row) :
    (c.draft table).record ⟨.sectioned, .onePass⟩ = .ok (c.record table) := by
  have hext := hp.extent
  rcases hp.fits with hfit | ⟨hm | hm, -, x, hx⟩
  · rcases hfit.cases with ⟨kind, al, hk, -⟩ | ⟨op, hop, -⟩
    · simp only [draft, record, linkedRecord, recordOf, hk]
      cases kind.digits? c.line.operands <;> rfl
    · rw [extent_of_command hop] at hext
      simp only [draft, record, linkedRecord, linkedField, recordOf, hop, hext]
      exact Draft.record_settled rfl (by decide) (hp.fits.admitted ht hop) (hp.legible op hop) _ _ _
  · have hst := (Statement.ofMnemonic_eq_exportName_iff table _).2 hm
    have hlegible : ∀ op ∈ c.line.operands, op.Legible := by
      simp [hx, Operand.Legible, Operand.isString]
    have hadm : Admitted Draft.definitionSize c.line.operands := by rw [hx]; exact .address x
    simp only [draft, record, linkedRecord, linkedField, hst, Draft.record,
      Draft.inOnePass_settled (d := ⟨.sectioned, .onePass⟩) rfl (by decide) hadm hlegible, map_ok]
    rfl
  · have hst := (Statement.ofMnemonic_eq_importName_iff table _).2 hm
    simp only [draft, record, linkedRecord, hst]
    rfl

end RowContext

end OnePass
end Assembler
