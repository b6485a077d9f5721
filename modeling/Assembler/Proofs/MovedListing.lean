import Mathlib.Data.List.Forall2
import Assembler.Proofs.SectionedObject

/-! # Object code from a moved listing

A listing is moved by adding one distance to all its addresses and to those of its symbols.  The
second pass then goes the same way over both listings: each of its functions takes emissions that
correspond (`Emission.Follows`) to emissions that correspond, and what one row gives carries over to
all rows of a section (`addRows_moved`).

Moving a record changes its address.  Besides that, only exported addresses change, and the operands
of commands at the addresses that `patched` holds of. -/

namespace Assembler
set_option autoImplicit false

/-! ## Listings and records -/

def Row.moved (k : Int) (r : Row) : Row := { r with address := r.address + k }

def Entry.moved (k : Int) (e : Entry (Option Int)) : Entry (Option Int) :=
  { e with address := e.address.map (· + k) }

def Sections.moved (k : Int) (sections : Sections (Option Int)) : Sections (Option Int) :=
  sections.mapValues fun names => names.mapValues (Entry.moved k)

def Symbols.moved (k : Int) : Symbols → Symbols
  | .flat names => .flat (names.mapValues (Option.map (· + k)))
  | .sectioned sections => .sectioned (sections.moved k)

def Modification.moved (k : Int) (m : Modification) : Modification :=
  { m with address := m.address + k }

/-- A record and what becomes of it when the listing is moved. -/
inductive ObjectRecord.Moved (k : Int) (patched : Int → Prop) : ObjectRecord → ObjectRecord → Prop
  | header (label : Option String) (a : Int) (n : Option Int) :
      Moved k patched (.header label a n) (.header label (a + k) n)
  | definition (x : String) (v : Int) :
    Moved k patched (.definition x (Text.address v)) (.definition x (Text.address (v + k)))
  | reference (x : String) : Moved k patched (.reference x) (.reference x)
  | address (a n byte v : Int) : patched a →
    Moved k patched (.code a n byte (Text.address v)) (.code (a + k) n byte (Text.address (v + k)))
  | code (a n byte : Int) (field : String) : ¬ patched a →
    Moved k patched (.code a n byte field) (.code (a + k) n byte field)
  | data (a n : Int) (digits : String) : Moved k patched (.data a n digits) (.data (a + k) n digits)
  | space (a n : Int) : Moved k patched (.space a n) (.space (a + k) n)
  | modification (a : Int) (x : Option String) :
      Moved k patched (.modification a x) (.modification (a + k) x)
  | finish (a : Int) : Moved k patched (.finish a) (.finish (a + k))

/-! ## Operands -/

theorem displacement_moved (target next k : Int) :
    displacement (target + k) (next + k) = displacement target next := by
  have hdistance : target + k - (next + k) = target - next := by omega
  rw [displacement, hdistance, displacement]

/-- A scope and the scope at the same place of the moved listing. -/
structure Scope.Moved (k : Int) (N : NameTable) (scope scope' : Scope) : Prop where
  relative : ∀ x, scope'.relative x = scope.relative x
  placed : ∀ x a, N.address? x = some a → scope.direct x = .ok (.number a) ∧
    scope'.direct x = .ok (.number (a + k))
  unplaced : ∀ x, N.address? x = none → scope'.direct x = scope.direct x

section

variable {k : Int} {sections : Sections (Option Int)} {label : Option String}
  {ns : SectionNames (Option Int)}

theorem Sections.get?_moved (h : sections.get? label = some ns) (k : Int) :
    (sections.moved k).get? label = some (ns.mapValues (Entry.moved k)) := by
  rw [moved, OrderedMap.get?_mapValues, h, Option.map_some]

theorem Directory.entry_moved (h : sections.get? label = some ns) (k : Int) (x : String) :
    (Directory.ofSections (sections.moved k)).entry label x =
      match ns.get? x with
      | some e => .ok ⟨Value.ofAddress? (e.address.map (· + k)), e.linkage⟩
      | none => .error (.missingKey (some x)) := by
  rw [entry_ofSections (Sections.get?_moved h k), OrderedMap.get?_mapValues]
  cases ns.get? x <;> rfl

theorem Scope.section_moved (h : sections.get? label = some ns) (next : Int) : Scope.Moved k ns.get?
    (Scope.ofDialect ⟨.sectioned, .twoPass⟩ (.ofSections sections) label next)
    (Scope.ofDialect ⟨.sectioned, .twoPass⟩ (.ofSections (sections.moved k)) label (next + k)) := by
  have hentry := Directory.entry_ofSections h
  have hmoved := Directory.entry_moved h k
  constructor
  · intro x
    simp only [ofDialect, sectionRelative, hentry, hmoved]
    cases ns.get? x with
    | none => rfl
    | some e =>
      cases ha : e.address with
      | none => simp only [ha, Option.map_none, Value.ofAddress?]
      | some a => simp only [ha, Option.map_some, Value.ofAddress?, displacement_moved]
  · intro x a hx
    obtain ⟨e, he, ha⟩ := Option.bind_eq_some_iff.1 hx
    simp [ofDialect, sectionDirect, hentry, hmoved, he, ha, Value.ofAddress?]
  · intro x hx
    simp only [ofDialect, sectionDirect, hentry, hmoved]
    cases he : ns.get? x with
    | none => rfl
    | some e =>
      have ha : e.address = none := by simpa [NameTable.address?, he] using hx
      simp only [ha, Option.map_none]

end

/-- The only operand is a direct name that has an address. -/
def NameTable.Places (N : NameTable) (ops : List Operand) : Prop :=
  ∃ x a, ops = [.direct x] ∧ N.address? x = some a

section

variable {k : Int} {N : NameTable} {scope scope' : Scope}

theorem Operand.value_moved (hs : Scope.Moved k N scope scope') {op : Operand}
    (h : ∀ x, op = .direct x → N.address? x = none) : op.value scope' = op.value scope := by
  cases op with
  | direct x => exact hs.unplaced x (h x rfl)
  | relative x => exact hs.relative x
  | _ => rfl

theorem Operand.values_moved (hs : Scope.Moved k N scope scope') {ops : List Operand}
    (h : ∀ x, .direct x ∈ ops → N.address? x = none) :
    Operand.values scope' ops = Operand.values scope ops := by
  induction ops with
  | nil => rfl
  | cons op ops ih =>
    have hop : op.value scope' = op.value scope :=
      Operand.value_moved hs fun x hx => h x (by rw [hx]; exact List.mem_cons_self)
    rw [values, values, hop, ih fun x hx => h x (List.mem_cons_of_mem _ hx)]

theorem Field.ofOperands_moved (hs : Scope.Moved k N scope scope') (d : Dialect) (size : Int)
    {ops : List Operand} (h : ∀ x, .direct x ∈ ops → N.address? x = none) :
    ofOperands d scope' size ops = ofOperands d scope size ops := by
  rw [ofOperands, ofOperands, Operand.values_moved hs h]

theorem Field.ofOperands_direct {x : String} {v : Int} (h : scope.direct x = .ok (.number v)) :
    ofOperands ⟨.sectioned, .twoPass⟩ scope 4 [.direct x] = .ok (some (Text.address v)) := by
  simp [ofOperands, Operand.values, Operand.value, h, FieldWidth.ofSource?, lenient,
    FieldWidth.formatAll, FieldWidth.format, Except.map, Text.address]

theorem Field.ofOperands_placed (hs : Scope.Moved k N scope scope') {ops : List Operand}
    (h : N.Places ops) :
    ∃ v, ofOperands ⟨.sectioned, .twoPass⟩ scope 4 ops = .ok (some (Text.address v)) ∧
      ofOperands ⟨.sectioned, .twoPass⟩ scope' 4 ops = .ok (some (Text.address (v + k))) := by
  obtain ⟨x, v, rfl, hx⟩ := h
  obtain ⟨hdirect, hdirect'⟩ := hs.placed x v hx
  exact ⟨v, ofOperands_direct hdirect, ofOperands_direct hdirect'⟩

end

namespace TwoPass.SectionedCode

/-! ## Rows and sections -/

/-- A row with its size, and the moved row.  The size of an end directive is not read; as the last
row of a listing it has another one in the moved listing. -/
structure RowMoved (k : Int) (p p' : Row × Int) : Prop where
  row : p'.1 = p.1.moved k
  size : p.1.line.mnemonic ≠ "END" → p'.2 = p.2

/-- A section and the section of the moved listing. -/
structure Section.RowsMoved (k : Int) (sec sec' : Section) : Prop where
  label : sec'.label = sec.label
  rows : List.Forall₂ (RowMoved k) sec.rows sec'.rows

/-- What the rows of a section look at when they look at the section, and how it moves. -/
structure Section.Moved (k : Int) (sec sec' : Section) : Prop where
  label : sec'.label = sec.label
  first : sec'.first = sec.first + k
  length : sec'.length = sec.length
  holds : ∀ a, sec'.rows.any (·.1.address == a + k) = sec.rows.any (·.1.address == a)

theorem Section.RowsMoved.moved {k : Int} {sec sec' : Section} (h : RowsMoved k sec sec')
    (hne : sec.rows ≠ []) :
    Section.Moved k sec sec' := by
  have haddress : sec'.rows.map (·.1.address) = sec.rows.map (·.1.address + k) := by
    rw [← List.forall₂_eq_eq_eq, List.forall₂_map_left_iff, List.forall₂_map_right_iff]
    exact h.rows.flip.imp fun p' p hp => by rw [hp.row]; rfl
  have hfirst : sec'.first = sec.first + k := by
    obtain ⟨p, ps, hps⟩ := List.exists_cons_of_ne_nil hne
    rw [first, ← List.head?_map, haddress, first, hps]
    rfl
  have hlast : sec'.last = sec.last + k := by
    rw [last, ← List.getLast?_map, haddress, last, List.getLast?_map,
      List.getLast?_eq_some_getLast hne]
    rfl
  refine ⟨h.label, hfirst, ?_, fun a => ?_⟩
  · rw [length, length, hfirst, hlast]
    omega
  · have hany : ∀ (rows : List (Row × Int)) (b : Int),
        rows.any (·.1.address == b) = (rows.map (·.1.address)).any (· == b) := fun rows b => by
      rw [List.any_map]
      rfl
    rw [hany, hany, haddress, List.any_map, List.any_map]
    congr 1
    funext p
    rw [Bool.eq_iff_iff]
    simp

variable {k : Int} {patched : Int → Prop} {done done' : List ObjectRecord} {e e₁ e' : Emission}
  {sec sec' : Section} {table : OpTable} {sections : Sections (Option Int)}
    {ns : SectionNames (Option Int)} {r : Row} {p p' : Row × Int}

/-! ## Emissions -/

/-- What has been made of a listing, and what has been made of the moved listing up to the same row:
behind the records of earlier sections the records correspond one by one, nothing is found wrong,
and the modifications written have addresses that can be told. -/
structure Emission.Follows (k : Int) (patched : Int → Prop) (done done' : List ObjectRecord)
    (e e' : Emission) : Prop where
  records : ∃ b b', e.records = done ++ b ∧ e'.records = done' ++ b' ∧
    List.Forall₂ (ObjectRecord.Moved k patched) b b'
  open_ : e'.open_ = e.open_.map fun m => (m.1 + k, m.2)
  written : e'.written = e.written.map (Modification.moved k)
  found : e'.found = []
  told : ∀ m ∈ e.written, Text.hasDecimal (m.address + k) = true

/-- How a step over the moved listing ends, when the step over the listing has made `e`: in an
emission that corresponds to `e`, or because one of the modifications that `e` has written has an
address that cannot be told where it is now. -/
inductive Emission.MovesTo (k : Int) (e : Emission) (follows : Emission → Prop) :
    Except Fault Emission → Prop
  | made {e' : Emission} : follows e' → MovesTo k e follows (.ok e')
  | untold {m : Modification} : m ∈ e.written → Text.hasDecimal (m.address + k) = false →
    MovesTo k e follows (.error .noDecimal)

theorem Emission.Follows.add (h : e.Follows k patched done done' e') {o o' : ObjectRecord}
    (ho : ObjectRecord.Moved k patched o o') :
    (e.add o).Follows k patched done done' (e'.add o') := by
  obtain ⟨b, b', hb, hb', hall⟩ := h.records
  refine ⟨⟨b ++ [o], b' ++ [o'], ?_, ?_, ?_⟩, h.open_, h.written, h.found, h.told⟩
  · rw [Emission.add, hb, List.append_assoc]
  · rw [Emission.add, hb', List.append_assoc]
  · exact List.rel_append hall (.cons ho .nil)

theorem Emission.Follows.addSized (h : e.Follows k patched done done' e') {o o' : ObjectRecord}
    (ho : ObjectRecord.Moved k patched o o') {size : Int} (he : e.addSized size o = .ok e₁) :
    ∃ e₁', e'.addSized size o' = .ok e₁' ∧ e₁.Follows k patched done done' e₁' := by
  unfold Emission.addSized at he ⊢
  split_ifs at he ⊢
  obtain rfl := Except.ok.inj he
  exact ⟨_, rfl, h.add ho⟩

theorem Emission.Follows.noteOpen (h : e.Follows k patched done done' e') {a : Int}
    {ops : List Operand} (he : e.noteOpen a ops = .ok e₁) :
    ∃ e₁', e'.noteOpen (a + k) ops = .ok e₁' ∧ e₁.Follows k patched done done' e₁' := by
  unfold Emission.noteOpen at he ⊢
  simp only at he ⊢
  split_ifs at he ⊢
  · obtain rfl := Except.ok.inj he
    refine ⟨_, rfl, h.records, ?_, h.written, h.found, h.told⟩
    simp [h.open_]
  · obtain rfl := Except.ok.inj he
    exact ⟨_, rfl, h⟩

/-! ## What a row gives -/

theorem writeModifications_moved {label : Option String} (hns : sections.get? label = some ns)
    {ms : List (Int × String)} (htold : ∀ m ∈ ms, Text.hasDecimal (m.1 + k) = true)
    (h : writeModifications (.ofSections sections) label e ms = .ok e₁)
    (hsim : e.Follows k patched done done' e') :
    ∃ e₁', writeModifications (.ofSections (sections.moved k)) label e'
      (ms.map fun m => (m.1 + k, m.2)) = .ok e₁' ∧
      e₁.Follows k patched done done' e₁' := by
  induction ms generalizing e e' with
  | nil =>
    obtain rfl := Except.ok.inj h
    exact ⟨e', rfl, hsim⟩
  | cons m ms ih =>
    obtain ⟨a, x⟩ := m
    rw [writeModifications, Directory.entry_ofSections hns] at h
    rw [List.map_cons, writeModifications, Directory.entry_moved hns]
    cases hx : ns.get? x with
    | none => simp [hx] at h
    | some entry =>
      simp only [hx] at h ⊢
      apply ih (fun m hm => htold m (List.mem_cons_of_mem _ hm)) h
      have hadded :=
        hsim.add (.modification a (if entry.linkage = some .imported then some x else none))
      refine ⟨hadded.records, hsim.open_, by simp [hsim.written, Modification.moved], hsim.found,
        fun m hm => ?_⟩
      cases List.mem_append.1 hm with
      | inl hm => exact hsim.told m hm
      | inr hm =>
        obtain rfl := List.mem_singleton.1 hm
        exact htold _ List.mem_cons_self

theorem addEntry_moved (hsec : Section.Moved k sec sec') (hops : r.line.operands = [])
    (hf : (addEntry dialect sec r e).found = []) (hsim : e.Follows k patched done done' e') :
    (addEntry dialect sec r e).Follows k patched done done'
      (addEntry dialect sec' (r.moved k) e') := by
  have hentry : onlyNumber? r.line.operands = none := by rw [hops]; rfl
  have hentry' : onlyNumber? (r.moved k).line.operands = none := hentry
  unfold addEntry at hf ⊢
  simp only [hentry, hentry', Option.getD_none, hsec.first, hsec.holds, if_true] at hf ⊢
  split_ifs at hf ⊢
  · exact hsim.add (.finish _)
  · simp [Emission.add, Emission.report] at hf

theorem closeSection_moved (hsec : Section.Moved k sec sec')
    (hns : sections.get? sec.label = some ns) (hops : r.line.operands = [])
    (h : closeSection dialect (.ofSections sections) sec r e = .ok e₁) (hf : e₁.found = [])
    (hsim : e.Follows k patched done done' e') :
    e₁.MovesTo k (e₁.Follows k patched done done')
      (closeSection dialect (.ofSections (sections.moved k)) sec' (r.moved k) e') := by
  obtain ⟨-, e₂, he₂, rfl⟩ := closeSection_eq_ok_iff.1 h
  simp only [closeSection, hsim.open_, List.all_map, Function.comp_def]
  split_ifs with htold
  · obtain ⟨e₂', he₂', hsim₂⟩ := writeModifications_moved hns (List.all_eq_true.1 htold) he₂ hsim
    rw [hsec.label, he₂', map_ok]
    exact .made (addEntry_moved hsec hops hf hsim₂)
  · rw [Bool.not_eq_true, List.all_eq_false] at htold
    obtain ⟨m, hm, hlost⟩ := htold
    have hwritten : ⟨m.1, m.2, sec.label⟩ ∈ (addEntry dialect sec r e₂).written := by
      rw [written_addEntry, written_writeModifications he₂]
      exact List.mem_append_right _ (List.mem_map_of_mem hm)
    exact .untold hwritten (eq_false_of_ne_true hlost)

/-- What the rows of a section have to be for their operands to move with the addresses in
`patched`. -/
structure Movable (table : OpTable) (N : NameTable) (patched : Int → Prop) (r : Row) : Prop where
  closing : r.line.mnemonic = Sectioned.sectionEnd ∨ r.line.mnemonic = "END" → r.line.operands = []
  exported : r.line.mnemonic = "EXTDEF" → N.Places r.line.operands
  command : ∀ op, table.get? r.line.mnemonic = some op →
    patched r.address ∧ op.size = 4 ∧ N.Places r.line.operands ∨
      ¬ patched r.address ∧ ∀ x, .direct x ∈ r.line.operands → N.address? x = none

theorem addDirective_moved (hsec : Section.Moved k sec sec')
    (hns : sections.get? sec.label = some ns)
    (hops : r.line.mnemonic = Sectioned.sectionEnd ∨ r.line.mnemonic = "END" → r.line.operands = [])
    {size size' : Int} (hsize : r.line.mnemonic ≠ "END" → size' = size)
    (h : addDirective dialect (.ofSections sections) sec r size e = .ok e₁) (hf : e₁.found = [])
    (hsim : e.Follows k patched done done' e') :
    e₁.MovesTo k (e₁.Follows k patched done done')
      (addDirective dialect (.ofSections (sections.moved k)) sec' (r.moved k) size' e') := by
  have hline : (r.moved k).line = r.line := rfl
  have hsized : ∀ {o o'}, ObjectRecord.Moved k patched o o' → e.addSized size o = .ok e₁ →
      e₁.MovesTo k (e₁.Follows k patched done done') (e'.addSized size o') := by
    intro o o' ho he
    obtain ⟨e₁', he₁', hsim₁⟩ := hsim.addSized ho he
    rw [he₁']
    exact .made hsim₁
  unfold addDirective at h ⊢
  simp only [hline] at h ⊢
  by_cases hend : r.line.mnemonic = Sectioned.sectionEnd ∨ r.line.mnemonic = "END"
  · rw [if_pos hend] at h ⊢
    exact closeSection_moved hsec hns (hops hend) h hf hsim
  · rw [if_neg hend] at h ⊢
    rw [hsize fun hm => hend (.inr hm)]
    split_ifs at h ⊢
    · obtain rfl := Except.ok.inj h
      rw [hsec.length]
      exact .made (hsim.add (.header _ _ _))
    · exact hsized (.space _ _) h
    · cases hop : r.line.operands with
      | nil => simp [hop] at h
      | cons op ops =>
        simp only [hop, map_eq_ok_iff] at h ⊢
        obtain ⟨x, hx, rfl⟩ := h
        rw [hx, map_ok]
        exact .made (hsim.add (.reference x))
    · exact hsized (.data _ _ _) h
    · exact hsized (.data _ _ _) h
    · obtain rfl := Except.ok.inj h
      exact .made hsim

section

variable {N : NameTable} {scope scope' : Scope}

theorem addExport_moved (hs : Scope.Moved k N scope scope')
    (hr : r.line.mnemonic = "EXTDEF" → N.Places r.line.operands)
    (h : addExport dialect scope r e = .ok e₁) (hsim : e.Follows k patched done done' e') :
    ∃ e₁', addExport dialect scope' (r.moved k) e' = .ok e₁' ∧
      e₁.Follows k patched done done' e₁' := by
  have hline : (r.moved k).line = r.line := rfl
  unfold addExport at h ⊢
  rw [hline]
  split_ifs at h ⊢ with hm
  · obtain ⟨a, ha, ha'⟩ := Field.ofOperands_placed hs (hr hm)
    obtain ⟨x, b, hx, -⟩ := hr hm
    rw [definitionRecord, ha, hx] at h
    rw [definitionRecord, ha', hx]
    obtain rfl := Except.ok.inj h
    exact ⟨_, rfl, hsim.add (.definition x a)⟩
  · obtain rfl := Except.ok.inj h
    exact ⟨_, rfl, hsim⟩

theorem codeRecord_moved (hs : Scope.Moved k N scope scope') (hr : Movable table N patched r)
    {op : Operation} (hop : table.get? r.line.mnemonic = some op) {field : Option String}
    (h : Field.ofOperands dialect scope op.size r.line.operands = .ok field) (size byte : Int) :
    ∃ field', Field.ofOperands dialect scope' op.size r.line.operands = .ok field' ∧
      ObjectRecord.Moved k patched (.code r.address size byte (Field.shown field))
        (.code (r.address + k) size byte (Field.shown field')) := by
  obtain ⟨hpatched, hsize, hplaces⟩ | ⟨hpatched, hunplaced⟩ := hr.command op hop
  · obtain ⟨v, hv, hv'⟩ := Field.ofOperands_placed hs hplaces
    rw [hsize] at h ⊢
    obtain rfl := Except.ok.inj (hv.symm.trans h)
    exact ⟨_, hv', .address _ _ _ v hpatched⟩
  · exact ⟨field, (Field.ofOperands_moved hs _ _ hunplaced).trans h, .code _ _ _ _ hpatched⟩

theorem addCommand_moved (hs : Scope.Moved k N scope scope') (hr : Movable table N patched r)
    {size : Int} (h : addCommand dialect scope table r size e = .ok e₁)
    (hsim : e.Follows k patched done done' e') :
    ∃ e₁', addCommand dialect scope' table (r.moved k) size e' = .ok e₁' ∧
      e₁.Follows k patched done done' e₁' := by
  have hline : (r.moved k).line = r.line := rfl
  have haddress : (r.moved k).address = r.address + k := rfl
  unfold addCommand at h ⊢
  simp only [hline, haddress] at h ⊢
  cases hop : table.get? r.line.mnemonic with
  | none =>
    simp only [hop, Except.ok.injEq] at h ⊢
    subst h
    exact ⟨_, rfl, hsim⟩
  | some op =>
    simp only [hop] at h ⊢
    cases hfield : Field.ofOperands dialect scope op.size r.line.operands with
    | error x => simp [hfield] at h
    | ok field =>
      obtain ⟨field', hfield', hrecord⟩ :=
        codeRecord_moved hs hr hop hfield size (codeByte op.opcode r.line.operands)
      simp only [hfield, hfield'] at h ⊢
      split at h
      · cases h
      · next e₂ he₂ =>
        obtain ⟨e₂', he₂', hsim₂⟩ := hsim.addSized hrecord he₂
        obtain ⟨e₁', he₁', hsim₁⟩ := hsim₂.noteOpen h
        refine ⟨e₁', ?_, hsim₁⟩
        rw [he₂']
        exact he₁'

end

theorem addRow_moved_of_directive (hsec : Section.Moved k sec sec')
    (hns : sections.get? sec.label = some ns) (hr : Movable table ns.get? patched p.1)
    {e₂ e₃ e₂' : Emission}
    (hexport :
      addExport dialect (.ofDialect dialect (.ofSections sections) sec.label (p.1.address + p.2))
        p.1 e₂ = .ok e₃)
          (hcommand :
            addCommand dialect
              (.ofDialect dialect (.ofSections sections) sec.label (p.1.address + p.2)) table p.1
                p.2 e₃ = .ok e₁)
    (hdirective : addDirective dialect (.ofSections (sections.moved k)) sec' (p.1.moved k) p.2 e' =
      .ok e₂')
    (hsim : e₂.Follows k patched done done' e₂') :
    ∃ e₁', addRow dialect (.ofSections (sections.moved k)) table sec' e' (p.1.moved k, p.2) =
      .ok e₁' ∧
      e₁.Follows k patched done done' e₁' := by
  have hs : Scope.Moved k ns.get?
      (Scope.ofDialect dialect (.ofSections sections) sec.label (p.1.address + p.2))
        (Scope.ofDialect dialect (.ofSections (sections.moved k)) sec'.label
          ((p.1.moved k).address + p.2)) := by
    have hnext : (p.1.moved k).address + p.2 = p.1.address + p.2 + k := by
      show p.1.address + k + p.2 = _
      omega
    rw [hsec.label, hnext]
    exact Scope.section_moved hns _
  obtain ⟨e₃', hexport', hsim₃⟩ := addExport_moved hs hr.exported hexport hsim
  obtain ⟨e₁', hcommand', hsim₁⟩ := addCommand_moved hs hr hcommand hsim₃
  exact ⟨e₁', (addRow_eq_ok_iff hsim₁.found).2 ⟨e₂', e₃', hdirective, hexport', hcommand'⟩, hsim₁⟩

theorem addRow_moved (hget : table.get? "END" = none) (hsec : Section.Moved k sec sec')
    (hns : sections.get? sec.label = some ns) (hr : Movable table ns.get? patched p.1)
    (hp : RowMoved k p p') (h : addRow dialect (.ofSections sections) table sec e p = .ok e₁)
    (hf : e₁.found = []) (hsim : e.Follows k patched done done' e') :
    e₁.MovesTo k (e₁.Follows k patched done done')
      (addRow dialect (.ofSections (sections.moved k)) table sec' e' p') := by
  obtain ⟨e₂, e₃, hdirective, hexport, hcommand⟩ := (addRow_eq_ok_iff hf).1 h
  have hf₂ : e₂.found = [] := by rw [← found_addExport hexport, ← (addCommand_added hcommand).1, hf]
  have hwritten : e₁.written = e₂.written := by
    rw [(addCommand_added hcommand).2.1, written_addExport hexport]
  have hmoved := addDirective_moved hsec hns hr.closing hp.size hdirective hf₂ hsim
  obtain ⟨r', size'⟩ := p'
  obtain rfl : r' = p.1.moved k := hp.row
  generalize hstep :
    addDirective dialect (.ofSections (sections.moved k)) sec' (p.1.moved k) size' e' = step
      at hmoved
  cases hmoved with
  | untold hm hlost =>
    rw [addRow, hstep]
    exact .untold (hwritten ▸ hm) hlost
  | @made e₂' hsim₂ =>
    by_cases hend : p.1.line.mnemonic = "END"
    · have hnone : table.get? p.1.line.mnemonic = none := by rw [hend, hget]
      have hexp : p.1.line.mnemonic ≠ "EXTDEF" := by rw [hend]; decide
      rw [addExport, if_neg hexp] at hexport
      obtain rfl := Except.ok.inj hexport
      simp only [addCommand, hnone, Except.ok.injEq] at hcommand
      subst hcommand
      have hrow :
          addRow dialect (.ofSections (sections.moved k)) table sec' e' (p.1.moved k, size') =
            .ok e₂' :=
        (addRow_of_directive (p := (p.1.moved k, size')) hnone hexp).trans hstep
      rw [hrow]
      exact .made hsim₂
    · obtain rfl : size' = p.2 := hp.size hend
      obtain ⟨e₁', hrow, hsim₁⟩ :=
        addRow_moved_of_directive hsec hns hr hexport hcommand hstep hsim₂
      rw [hrow]
      exact .made hsim₁

/-- All rows: what they give in the moved listing corresponds to what they give in the listing. -/
theorem addRows_moved (hget : table.get? "END" = none) (hsec : Section.Moved k sec sec')
    (hns : sections.get? sec.label = some ns) {ps ps' : List (Row × Int)}
    (hps : List.Forall₂ (RowMoved k) ps ps') (hr : ∀ p ∈ ps, Movable table ns.get? patched p.1)
    (h : addRows dialect (.ofSections sections) table sec e ps = .ok e₁) (hf : e₁.found = [])
    (hsim : e.Follows k patched done done' e') :
    e₁.MovesTo k (e₁.Follows k patched done done')
      (addRows dialect (.ofSections (sections.moved k)) table sec' e' ps') := by
  induction hps generalizing e e' with
  | nil =>
    obtain rfl := Except.ok.inj h
    exact .made hsim
  | @cons p p' ps ps' hp hps ih =>
    rw [addRows] at h
    split at h
    · cases h
    · next e₂ he₂ =>
      have hrow :=
        addRow_moved hget hsec hns (hr _ List.mem_cons_self) hp he₂ (found_addRows h hf) hsim
      rw [addRows]
      generalize addRow dialect (.ofSections (sections.moved k)) table sec' e' p' = step at hrow
      cases hrow with
      | made hsim₂ => exact ih (fun q hq => hr q (List.mem_cons_of_mem _ hq)) h hsim₂
      | untold hm hlost => exact .untold ((written_addRows h hf).subset hm) hlost

/-! ## Sections of a moved listing -/

theorem sizedRows_moved {rows : List Row} (hlast : ∀ r ∈ rows.getLast?, r.line.mnemonic = "END") :
    List.Forall₂ (RowMoved k) (sizedRows rows) (sizedRows (rows.map (Row.moved k))) := by
  induction rows with
  | nil => exact .nil
  | cons r rows ih =>
    cases rows with
    | nil => exact .cons ⟨rfl, fun hend => absurd (hlast r rfl) hend⟩ .nil
    | cons next rows =>
      refine .cons ⟨rfl, fun _ => ?_⟩ (ih hlast)
      show next.address + k - (r.address + k) = next.address - r.address
      omega

theorem sectionsOf_moved {ps ps' : List (Row × Int)} (h : List.Forall₂ (RowMoved k) ps ps') :
    List.Forall₂ (Section.RowsMoved k) (sectionsOf ps) (sectionsOf ps') := by
  induction h with
  | nil => exact .nil
  | @cons p p' ps ps' hp hps ih =>
    have hlabel : p'.1.section_ = p.1.section_ := by rw [hp.row]; rfl
    rw [sectionsOf, sectionsOf, hlabel]
    generalize sectionsOf ps = secs at ih ⊢
    generalize sectionsOf ps' = secs' at ih ⊢
    cases ih with
    | nil => exact .cons ⟨rfl, .cons hp .nil⟩ .nil
    | @cons sec sec' secs secs' hsec hsecs =>
      simp only [hsec.label]
      split_ifs
      · exact .cons ⟨rfl, .cons hp hsec.rows⟩ hsecs
      · exact .cons ⟨rfl, .cons hp .nil⟩ (.cons hsec hsecs)

end TwoPass.SectionedCode

end Assembler
