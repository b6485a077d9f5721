import Assembler.Proofs.Runs
import Assembler.Proofs.Waiting

/-! # Control sections and their names

A sectioned program is a list of control sections (`controlSections`), each with lines placed from
zero on and with names of its own.  A line changes the names of its section in one way in all passes
(`NameTable.after`): a label gives its name an address, an export or import directive gives its name
a linkage, and in one pass a command puts the name it refers to into the table.  What a name has
come to after some lines follows from the lines that concern it. -/

namespace Assembler
set_option autoImplicit false

/-! ## What a line says of names -/

namespace Line

/-- The operation that a line of a sectioned program asks for. -/
def operation? (table : OpTable) (l : Line) : Option Operation :=
  match Statement.ofMnemonic .sectioned table l.mnemonic with
  | .command op => some op
  | _ => none

theorem operation?_eq_some_iff {table : OpTable} {l : Line} {op : Operation} :
    l.operation? table = some op ↔
      Statement.ofMnemonic .sectioned table l.mnemonic = .command op := by
  unfold operation?
  cases Statement.ofMnemonic .sectioned table l.mnemonic <;> simp

end Line

theorem onlyName?_eq_some_iff {ops : List Operand} {x : String} :
    onlyName? ops = some x ↔ ops = [.direct x] := by
  refine ⟨fun h => ?_, fun h => by rw [h]; rfl⟩
  unfold onlyName? at h
  split at h <;> simp_all

namespace Line

def Exports (l : Line) (x : String) : Prop := l.mnemonic = "EXTDEF" ∧ onlyName? l.operands = some x

def Imports (l : Line) (x : String) : Prop := l.mnemonic = "EXTREF" ∧ onlyName? l.operands = some x

/-- The line is a command with a name for its operand. -/
def RefersTo (table : OpTable) (l : Line) (x : String) : Prop :=
  (l.operation? table).isSome = true ∧ referenceOf l.operands = some x

instance (l : Line) (x : String) : Decidable (l.Exports x) := inferInstanceAs (Decidable (_ ∧ _))

instance (l : Line) (x : String) : Decidable (l.Imports x) := inferInstanceAs (Decidable (_ ∧ _))

instance (table : OpTable) (l : Line) (x : String) : Decidable (l.RefersTo table x) :=
  inferInstanceAs (Decidable (_ ∧ _))

theorem not_exports {table : OpTable} {l : Line}
    (h : Statement.ofMnemonic .sectioned table l.mnemonic ≠ .exportName) (x : String) :
    ¬ l.Exports x := fun hx => h ((Statement.ofMnemonic_eq_exportName_iff _ _).2 hx.1)

theorem not_imports {table : OpTable} {l : Line}
    (h : Statement.ofMnemonic .sectioned table l.mnemonic ≠ .importName) (x : String) :
    ¬ l.Imports x := fun hx => h ((Statement.ofMnemonic_eq_importName_iff _ _).2 hx.1)

theorem not_refersTo {table : OpTable} {l : Line}
    (h : ∀ op, Statement.ofMnemonic .sectioned table l.mnemonic ≠ .command op) (x : String) :
    ¬ l.RefersTo table x := fun hx => by
  obtain ⟨op, hop⟩ := Option.isSome_iff_exists.1 hx.1
  exact h op (operation?_eq_some_iff.1 hop)

theorem Exports.not_imports {l : Line} {x y : String} (h : l.Exports x) : ¬ l.Imports y :=
  fun h' => by
  simpa [h.1] using h'.1

end Line

/-! ## Lines of sections -/

/-- Nothing is wrong with what a line of a section asks for at an address. -/
def Line.LinkFits (table : OpTable) (use : NameUse) (a : Int) (l : Line) : Prop :=
  l.Fits .sectioned table use a ∨
    (l.mnemonic = "EXTDEF" ∨ l.mnemonic = "EXTREF") ∧ l.name? = none ∧ ∃ x, l.operands = [.direct x]

/-- A row of a section that nothing is wrong with: its line fits, has strings with values and takes
the space of the row. -/
structure RowFits (table : OpTable) (use : NameUse) (p : Row × Int) : Prop where
  fits : p.1.line.LinkFits table use p.1.address
  legible : p.1.line.Legible .sectioned table
  extent : p.2 = p.1.line.extent .sectioned table

theorem Line.LinkFits.admitted {table : OpTable} {use : NameUse} {a : Int} {l : Line}
    (h : l.LinkFits table use a) (ht : table.Sized .sectioned) {op : Operation}
    (hop : Statement.ofMnemonic .sectioned table l.mnemonic = .command op) :
    Admitted op.size l.operands := by
  rcases h with h | ⟨hm | hm, -⟩
  · exact h.admitted ht hop
  · simp [(Statement.ofMnemonic_eq_exportName_iff table _).2 hm] at hop
  · simp [(Statement.ofMnemonic_eq_importName_iff table _).2 hm] at hop

theorem Line.LinkFits.extent_nonneg {table : OpTable} {use : NameUse} {a : Int} {l : Line}
    (h : l.LinkFits table use a) (ht : table.Sized .sectioned) : 0 ≤ l.extent .sectioned table := by
  obtain hfit | ⟨hm | hm, -⟩ := h
  · exact hfit.extent_nonneg ht
  · simp only [Line.extent, (Statement.ofMnemonic_eq_exportName_iff table _).2 hm, Int.le_refl]
  · simp only [Line.extent, (Statement.ofMnemonic_eq_importName_iff table _).2 hm, Int.le_refl]

theorem Line.LinkFits.extent_eq_space {table : OpTable} {use : NameUse} {a : Int} {l : Line}
    (h : l.LinkFits table use a) :
    l.extent .sectioned table = l.space .sectioned table := by
  rcases h with h | ⟨hm | hm, -⟩
  · exact h.extent_eq_space
  · simp only [Line.extent, Line.space, (Statement.ofMnemonic_eq_exportName_iff table _).2 hm]
  · simp only [Line.extent, Line.space, (Statement.ofMnemonic_eq_importName_iff table _).2 hm]

theorem Line.LinkFits.operands_of_export {table : OpTable} {use : NameUse} {a : Int} {l : Line}
    (h : l.LinkFits table use a)
    (hm : Statement.ofMnemonic .sectioned table l.mnemonic = .exportName) :
    l.name? = none ∧ ∃ x, l.operands = [.direct x] := by
  rcases h with h | ⟨-, h⟩
  · simp [Line.Fits, hm] at h
  · exact h

/-- A line of a section whose operand is a relative name is a command. -/
theorem Line.LinkFits.refersTo_of_relative {table : OpTable} {use : NameUse} {a : Int} {l : Line}
    (h : l.LinkFits table use a) {x : String} (hx : l.operands = [.relative x]) :
    l.RefersTo table x := by
  rcases h with h | ⟨-, -, y, hy⟩
  · rcases h.cases with ⟨kind, al, -, hal, -⟩ | ⟨op, hop, -⟩
    · obtain ⟨o, ho, hname⟩ := Storage.operands_of_allot hal
      obtain rfl : o = .relative x := by simpa [ho] using hx
      cases hname
    · exact ⟨by rw [Line.operation?_eq_some_iff.2 hop]; rfl, by rw [hx]; rfl⟩
  · simp [hy] at hx

/-! ## Tables of names -/

abbrev NameTable : Type := String → Option (Entry (Option Int))

namespace NameTable

def address? (N : NameTable) (x : String) : Option Int := (N x).bind (·.address)

def linkage? (N : NameTable) (x : String) : Option Linkage := (N x).bind (·.linkage)

def Imported (N : NameTable) (x : String) : Prop := N.linkage? x = some .imported

instance (N : NameTable) (x : String) : Decidable (N.Imported x) :=
  inferInstanceAs (Decidable (_ = _))

/-- The names once the label of a line at an address is noted. -/
def label (N : NameTable) (a : Int) (l : Line) : NameTable := fun x =>
  if l.name? = some x then some ⟨some a, N.linkage? x⟩ else N x

/-- The names after a line at an address.  Only in one pass a command puts the name it refers to
into the table. -/
def after (strategy : Strategy) (table : OpTable) (N : NameTable) (a : Int) (l : Line) :
    NameTable := fun x =>
  if l.Exports x
    then some ⟨(N.label a l).address? x, ((N.label a l).linkage? x).or (some .exported)⟩
  else if l.Imports x then some ⟨none, some .imported⟩
  else if strategy = .onePass ∧ l.RefersTo table x then some ((N.label a l x).getD ⟨none, none⟩)
  else N.label a l x

def afterRows (strategy : Strategy) (table : OpTable) : NameTable → List Row → NameTable
  | N, [] => N
  | N, r :: rs => afterRows strategy table (N.after strategy table r.address r.line) rs

variable {strategy : Strategy} {table : OpTable} {N : NameTable} {a : Int} {l : Line} {x : String}

theorem label_of_none (h : l.name? = none) : N.label a l = N := by
  funext x
  simp [label, h]

theorem label_of_ne (h : l.name? ≠ some x) : N.label a l x = N x := if_neg h

theorem label_self (h : l.name? = some x) : N.label a l x = some ⟨some a, N.linkage? x⟩ := if_pos h

theorem linkage?_label (N : NameTable) (a : Int) (l : Line) (x : String) :
    (N.label a l).linkage? x = N.linkage? x := by
  unfold linkage? label
  split <;> rfl

theorem address?_label (N : NameTable) (a : Int) (l : Line) (x : String) :
    (N.label a l).address? x = if l.name? = some x then some a else N.address? x := by
  unfold address? label
  split <;> rfl

/-- A line that links no name and puts none into the table leaves its label only. -/
theorem after_eq_label (hexp : ∀ x, ¬ l.Exports x) (himp : ∀ x, ¬ l.Imports x)
    (href : strategy = .onePass → ∀ x, ¬ l.RefersTo table x) (N : NameTable) (a : Int) :
    N.after strategy table a l = N.label a l := by
  funext x
  rw [after, if_neg (hexp x), if_neg (himp x), if_neg fun h => href h.1 x h.2]

theorem afterRows_append (strategy : Strategy) (table : OpTable) (N : NameTable)
    (rs rs' : List Row) :
    afterRows strategy table N (rs ++ rs') = afterRows strategy table
      (afterRows strategy table N rs) rs' := by
  induction rs generalizing N with
  | nil => rfl
  | cons r rs ih => exact ih _

/-- One pass takes a line after some names: its label has no address yet, and if it links a name,
that name has no linkage and the line has no label. -/
structure Takes (N : NameTable) (l : Line) : Prop where
  label : ∀ x, l.name? = some x → N.address? x = none
  linkage : ∀ x, l.Exports x ∨ l.Imports x → l.name? = none ∧ N.linkage? x = none

/-- Each of some rows is taken after the names that the rows before it have left. -/
def TakesAll (table : OpTable) (rs : List Row) : Prop :=
  ∀ pre r post, rs = pre ++ r :: post → Takes (afterRows .onePass table (fun _ => none) pre) r.line

theorem takesAll_concat {rs : List Row} (h : TakesAll table rs) {r : Row}
    (hr : Takes (afterRows .onePass table (fun _ => none) rs) r.line) :
    TakesAll table (rs ++ [r]) := by
  intro pre q post heq
  rcases List.eq_nil_or_concat post with rfl | ⟨post, q', rfl⟩
  · obtain ⟨rfl, hq⟩ := List.append_inj' heq rfl
    rwa [← List.head_eq_of_cons_eq hq]
  · rw [List.concat_eq_append, ← List.cons_append, ← List.append_assoc] at heq
    exact h pre q post (List.append_inj' heq rfl).1

/-! ### What has become of a name -/

theorem linkage?_after : (N.after strategy table a l).linkage? x =
    if l.Exports x then (N.linkage? x).or (some .exported) else if l.Imports x then some .imported
      else N.linkage? x := by
  rw [← linkage?_label N a l x]
  simp only [linkage?, after]
  split_ifs
  · rfl
  · rfl
  · cases N.label a l x <;> rfl
  · rfl

theorem imported_after : (N.after strategy table a l).Imported x ↔ N.Imported x ∨ l.Imports x := by
  unfold Imported
  rw [linkage?_after]
  split_ifs with hexp himp
  · cases h : N.linkage? x <;> simp [hexp.not_imports]
  · simp [himp]
  · simp [himp]

/-- A name is imported if and only if a line has imported it. -/
theorem imported_afterRows {rs : List Row} :
    (afterRows strategy table N rs).Imported x ↔ N.Imported x ∨ ∃ r ∈ rs, r.line.Imports x := by
  induction rs generalizing N with
  | nil => simp [afterRows]
  | cons r rs ih => simp [afterRows, ih, imported_after, or_assoc]

theorem imported_afterRows_empty {rs : List Row} :
    (afterRows strategy table (fun _ => none) rs).Imported x ↔ ∃ r ∈ rs, r.line.Imports x :=
  imported_afterRows.trans (or_iff_right nofun)

theorem isSome_after : (N.after strategy table a l x).isSome = true ↔
    (N x).isSome = true ∨ l.name? = some x ∨ l.Exports x ∨ l.Imports x ∨ strategy = .onePass ∧
    l.RefersTo table x := by
  have hlabel : (N.label a l x).isSome = true ↔ (N x).isSome = true ∨ l.name? = some x := by
    unfold label
    split <;> simp_all
  unfold after
  split_ifs with hexp himp href
  · simp [hexp]
  · simp [himp]
  · simp [href]
  · simp [hlabel, hexp, himp, href]

/-- A name is in the table if and only if a line has put it there. -/
theorem isSome_afterRows {rs : List Row} : (afterRows strategy table N rs x).isSome = true ↔
    (N x).isSome = true ∨ ∃ r ∈ rs, r.line.name? = some x ∨ r.line.Exports x ∨ r.line.Imports x ∨
      strategy = .onePass ∧ r.line.RefersTo table x := by
  induction rs generalizing N with
  | nil => simp [afterRows]
  | cons r rs ih =>
    simp only [afterRows, ih, isSome_after, List.mem_cons, exists_eq_or_imp, or_assoc]

theorem address?_after (h : ¬ l.Imports x) :
    (N.after strategy table a l).address? x = if l.name? = some x then some a
      else N.address? x := by
  rw [← address?_label N a l x]
  by_cases hexp : l.Exports x
  · simp [address?, after, hexp]
  · simp only [address?, after, hexp, h, if_false]
    split
    · cases N.label a l x <;> rfl
    · rfl

/-- A name that is not imported has the address of the last line that carries it. -/
theorem address?_afterRows {rs : List Row} (h : ∀ r ∈ rs, ¬ r.line.Imports x) :
    (afterRows strategy table N rs).address? x = (addressOf rs x).or (N.address? x) := by
  induction rs generalizing N with
  | nil => simp [afterRows, addressOf]
  | cons r rs ih =>
    rw [afterRows, ih fun r' hr' => h r' (List.mem_cons_of_mem _ hr'),
      address?_after (h r List.mem_cons_self), addressOf, Option.or_assoc]
    split <;> simp

end NameTable

/-- The table of the last section with a label. -/
def tableOf : List (Option String × NameTable) → Option String → Option NameTable
  | [], _ => none
  | t :: ts, k => (tableOf ts k).or (if t.1 = k then some t.2 else none)

theorem tableOf_append (ts ts' : List (Option String × NameTable)) (k : Option String) :
    tableOf (ts ++ ts') k = (tableOf ts' k).or (tableOf ts k) := by
  induction ts with
  | nil => simp [tableOf]
  | cons t ts ih => simp [tableOf, ih, Option.or_assoc]

theorem tableOf_concat (ts : List (Option String × NameTable)) (t : Option String × NameTable)
    (k : Option String) :
    tableOf (ts ++ [t]) k = if t.1 = k then some t.2 else tableOf ts k := by
  rw [tableOf_append]
  simp only [tableOf]
  split <;> simp

/-- Replacing the names of the last section leaves those of the others. -/
theorem tableOf_replace {sections sections' : Sections (Option Int)}
    {ts : List (Option String × NameTable)} {k : Option String} {N : NameTable}
    (h : ∀ j, (sections.get? j).map (fun ns => ns.get?) = tableOf (ts ++ [(k, N)]) j)
    {ns : SectionNames (Option Int)} (hns : sections'.get? k = some ns)
    (hrest : ∀ j, k ≠ j → sections'.get? j = sections.get? j) (j : Option String) :
    (sections'.get? j).map (fun ns => ns.get?) = tableOf (ts ++ [(k, ns.get?)]) j := by
  have hj := h j
  rw [tableOf_concat] at hj ⊢
  by_cases hk : k = j
  · rw [if_pos hk, ← hk, hns]
    rfl
  · rw [if_neg hk] at hj ⊢
    rw [hrest j hk, hj]

theorem tableOf_eq_none {ts : List (Option String × NameTable)} {k : Option String}
    (h : k ∉ ts.map (·.1)) :
    tableOf ts k = none := by
  induction ts with
  | nil => rfl
  | cons t ts ih =>
    rw [List.map_cons, List.mem_cons, not_or] at h
    simp [tableOf, ih h.2, Ne.symm h.1]

theorem mem_of_tableOf {ts : List (Option String × NameTable)} {k : Option String} {N : NameTable}
    (h : tableOf ts k = some N) : (k, N) ∈ ts := by
  induction ts with
  | nil => cases h
  | cons t ts ih =>
    rw [tableOf, Option.or_eq_some_iff] at h
    cases h with
    | inl h => exact List.mem_cons_of_mem _ (ih h)
    | inr h =>
      obtain ⟨-, h⟩ := h
      split at h
      · next hk =>
        rw [← hk, ← Option.some.inj h]
        exact List.mem_cons_self
      · cases h

/-- Sections with different labels have tables of their own. -/
theorem tableOf_eq_some {ts : List (Option String × NameTable)} (h : (ts.map (·.1)).Nodup)
    {t : Option String × NameTable} (ht : t ∈ ts) : tableOf ts t.1 = some t.2 := by
  induction ts with
  | nil => cases ht
  | cons u ts ih =>
    rw [List.map_cons, List.nodup_cons] at h
    rcases List.mem_cons.1 ht with rfl | ht
    · simp [tableOf, tableOf_eq_none h.1]
    · simp [tableOf, ih h.2 ht]

/-! ## Control sections -/

/-- A control section as it is written: the directive that opens it, its lines, and the directive
that closes it, which opens the next section or ends the program. -/
structure ControlSection where
  opener : Line
  body : List Line
  closer : Line
  deriving DecidableEq, Repr

/-- Puts lines in front of those of the first section. -/
def prependBody (ls : List Line) : List ControlSection → List ControlSection
  | [] => []
  | sec :: secs => { sec with body := ls ++ sec.body } :: secs

/-- The sections of the lines behind a directive that opens one, up to the end directive. -/
def sectionsFrom (opener : Line) : List Line → List ControlSection
  | [] => []
  | l :: ls =>
    if l.mnemonic = "END" then [⟨opener, [], l⟩]
    else if l.mnemonic = "CSECT" then ⟨opener, [], l⟩ :: sectionsFrom l ls
    else prependBody [l] (sectionsFrom opener ls)

/-- The control sections of a program. -/
def controlSections : List Line → List ControlSection
  | [] => []
  | first :: ls => sectionsFrom first ls

namespace ControlSection

/-- The lines of a section at their addresses, each with the space it takes. -/
def rows (table : OpTable) (sec : ControlSection) : List (Row × Int) :=
  placed .sectioned table sec.opener.label 0 sec.body

def length (table : OpTable) (sec : ControlSection) : Int := extentOf .sectioned table sec.body

/-- The end directive, if that closes the section. -/
def endRows (table : OpTable) (sec : ControlSection) : List Row :=
  if sec.closer.mnemonic = "END" then [⟨sec.length table, sec.closer, sec.opener.label⟩] else []

/-- The rows whose labels are names of the section: its lines, and the end directive if that closes
it. -/
def nameRows (table : OpTable) (sec : ControlSection) : List Row :=
  (sec.rows table).map (·.1) ++ sec.endRows table

/-- The names of a section in the end. -/
def names (strategy : Strategy) (table : OpTable) (sec : ControlSection) : NameTable :=
  NameTable.afterRows strategy table (fun _ => none) (sec.nameRows table)

/-- The address where a section is entered. -/
def entry (sec : ControlSection) : Int := (onlyNumber? sec.closer.operands).getD 0

end ControlSection

/-- The labels of sections with their names. -/
def tablesOf (strategy : Strategy) (table : OpTable) (secs : List ControlSection) :
    List (Option String × NameTable) :=
  secs.map fun sec => (sec.opener.label, sec.names strategy table)

/-- The rows of lines behind a directive that opens a section. -/
def openRows (table : OpTable) (opener : Line) (ls : List Line) : List Row :=
  (placed .sectioned table opener.label 0 ls).map (·.1)

theorem openRows_concat (table : OpTable) (opener : Line) (ls : List Line) (l : Line) :
    openRows table opener (ls ++ [l]) = openRows table opener ls ++
      [⟨extentOf .sectioned table ls, l, opener.label⟩] := by
  rw [openRows, placed_append, Int.zero_add, List.map_append]
  rfl

section

variable {opener l : Line} {ls : List Line}

theorem ControlSection.nameRows_of_section (table : OpTable) (hl : l.mnemonic = "CSECT") :
    ControlSection.nameRows table ⟨opener, ls, l⟩ = openRows table opener ls := by
  simp [nameRows, endRows, rows, hl, openRows]

theorem ControlSection.nameRows_of_end (table : OpTable) (hl : l.mnemonic = "END") :
    ControlSection.nameRows table ⟨opener, ls, l⟩ =
      openRows table opener ls ++ [⟨extentOf .sectioned table ls, l, opener.label⟩] := by
  simp [nameRows, endRows, rows, length, hl, openRows]

/-- At the end directive its label is noted. -/
theorem ControlSection.names_of_end (strategy : Strategy) (table : OpTable)
    (hl : l.mnemonic = "END") :
    ControlSection.names strategy table ⟨opener, ls, l⟩ =
      (NameTable.afterRows strategy table (fun _ => none) (openRows table opener ls)).label
        (extentOf .sectioned table ls) l := by
  have hst := (Statement.ofMnemonic_eq_finish_iff .sectioned table _).2 hl
  rw [names, nameRows_of_end table hl, NameTable.afterRows_append]
  exact NameTable.after_eq_label (Line.not_exports (by rw [hst]; nofun))
    (Line.not_imports (by rw [hst]; nofun))
      (fun _ => Line.not_refersTo fun op => by rw [hst]; nofun) _ _

end

/-! ## Object code of sections -/

/-- The digits of the operands of a row in a section. -/
def linkedField (table : OpTable) (rd : Reading) (p : Row × Int) : Option String :=
  match Statement.ofMnemonic .sectioned table p.1.line.mnemonic with
  | .command op => operandDigits? rd op.size p.1.line.operands
  | .exportName => operandDigits? rd 4 p.1.line.operands
  | _ => some ""

/-- The record of a row in a section, with given digits. -/
def linkedRecord (table : OpTable) (p : Row × Int) (field : String) : ObjectRecord :=
  match Statement.ofMnemonic .sectioned table p.1.line.mnemonic with
  | .exportName => .definition ((onlyName? p.1.line.operands).getD "") field
  | .importName => .reference ((onlyName? p.1.line.operands).getD "")
  | _ => recordOf .sectioned table p field

/-- The addresses and names of commands that are modified when the section is placed. -/
def modifiedNames (table : OpTable) (p : Row × Int) : List (Int × String) :=
  match Statement.ofMnemonic .sectioned table p.1.line.mnemonic with
  | .command _ =>
    if Addressing.ofOperands p.1.line.operands = .direct then p.1.line.operands.map fun op =>
      (p.1.address, op.text) else []
  | _ => []

/-! ## Runs over sections -/

theorem prependBody_nil (secs : List ControlSection) : prependBody [] secs = secs := by
  cases secs <;> rfl

theorem prependBody_append (ls ls' : List Line) (secs : List ControlSection) :
    prependBody (ls ++ ls') secs = prependBody ls (prependBody ls' secs) := by
  cases secs <;> simp [prependBody]

/-- A run over the lines of a sectioned program goes through its sections one after another, if an
invariant on the sections closed so far and on the lines of the open one carries over from line to
line. -/
theorem cleanSteps_sections {σ : Type} {step : σ → Nat → Line → Except Fault σ} {clean : σ → Prop}
    (Inv : List ControlSection → Line → List Line → σ → Prop)
    (hbody : ∀ {done opener ls s n l s'}, Inv done opener ls s →
      (l.mnemonic ≠ "START" ∧ l.mnemonic ≠ "END") →
      l.mnemonic ≠ "CSECT" → step s n l = .ok s' → clean s' → Inv done opener (ls ++ [l]) s')
    (hsection : ∀ {done opener ls s n l s'}, Inv done opener ls s → l.mnemonic = "CSECT" →
      step s n l = .ok s' → clean s' →
      Inv (done ++ [⟨opener, ls, l⟩]) l [] s')
    {done : List ControlSection} {opener : Line} {ls : List Line} {s s' : σ}
    (h : Inv done opener ls s) {n : Nat} {body : List Line}
    (hb : ∀ l ∈ body, l.mnemonic ≠ "START" ∧ l.mnemonic ≠ "END")
    (hsteps : CleanSteps step clean s n body s') :
    ∃ done' opener' ls', Inv done' opener' ls' s' ∧ ∀ (last : Line) rest, last.mnemonic = "END" →
      done ++ prependBody ls (sectionsFrom opener (body ++ last :: rest)) =
        done' ++ [⟨opener', ls', last⟩] := by
  induction body generalizing done opener ls s n with
  | nil =>
    cases hsteps
    exact ⟨done, opener, ls, h, fun last rest hl => by simp [sectionsFrom, hl, prependBody]⟩
  | cons l body ih =>
    obtain ⟨s₁, hstep, hc, hrest⟩ := hsteps
    have hl := hb l List.mem_cons_self
    have hb := fun k hk => hb k (List.mem_cons_of_mem _ hk)
    by_cases hsect : l.mnemonic = "CSECT"
    · obtain ⟨done', opener', ls', hinv, hcut⟩ := ih (hsection h hsect hstep hc) hb hrest
      refine ⟨done', opener', ls', hinv, fun last rest hlast => ?_⟩
      rw [← hcut last rest hlast, prependBody_nil, List.cons_append, sectionsFrom, if_neg hl.2,
        if_pos hsect, prependBody]
      simp
    · obtain ⟨done', opener', ls', hinv, hcut⟩ := ih (hbody h hl hsect hstep hc) hb hrest
      refine ⟨done', opener', ls', hinv, fun last rest hlast => ?_⟩
      rw [← hcut last rest hlast, List.cons_append, sectionsFrom, if_neg hl.2, if_neg hsect,
        prependBody_append]

/-- At the end directive the sections of a program are those that were closed on the way and the
open one. -/
theorem cleanSteps_controlSections {σ : Type} {step : σ → Nat → Line → Except Fault σ}
    {clean : σ → Prop} (Inv : List ControlSection → Line → List Line → σ → Prop)
    (hbody : ∀ {done opener ls s n l s'}, Inv done opener ls s →
      (l.mnemonic ≠ "START" ∧ l.mnemonic ≠ "END") →
      l.mnemonic ≠ "CSECT" → step s n l = .ok s' → clean s' → Inv done opener (ls ++ [l]) s')
    (hsection : ∀ {done opener ls s n l s'}, Inv done opener ls s → l.mnemonic = "CSECT" →
      step s n l = .ok s' → clean s' →
      Inv (done ++ [⟨opener, ls, l⟩]) l [] s')
    {first last : Line} {body : List Line} {s s' : σ} {n : Nat} (h : Inv [] first [] s)
    (hb : ∀ l ∈ body, l.mnemonic ≠ "START" ∧ l.mnemonic ≠ "END")
    (hsteps : CleanSteps step clean s n body s') (hl : last.mnemonic = "END") (rest : List Line) :
    ∃ done opener ls, Inv done opener ls s' ∧
      controlSections (first :: (body ++ last :: rest)) = done ++ [⟨opener, ls, last⟩] := by
  obtain ⟨done, opener, ls, hinv, hcut⟩ := cleanSteps_sections Inv hbody hsection h hb hsteps
  refine ⟨done, opener, ls, hinv, ?_⟩
  rw [← hcut last rest hl, prependBody_nil]
  rfl

end Assembler
