import Assembler.Proofs.Operands
import Assembler.Listing

/-! # Where lines are placed

A line takes the same space wherever it stands, so the address of a line is the sum of the spaces of
the lines before it: `placed` puts lines one after another.  `Line.Fits` says when nothing is wrong
with a line of the body at an address.  The rows that the first of two passes leaves are the placed
lines, and the distances between them are the spaces again (`sizedRows_placed`). -/

namespace Assembler
set_option autoImplicit false

/-! ## The space a line takes -/

namespace Storage

/-- The space a storage directive takes. -/
def extent (kind : Storage) (ops : List Operand) : Int :=
  match kind.allot 0 ops with
  | .ok a => a.size
  | .error _ => 0

/-- The digits a storage directive puts down. -/
def digits? (kind : Storage) (ops : List Operand) : Option String :=
  match kind with
  | .words => wordDigits? ops
  | .bytes => byteDigits? ops
  | .reservedWords | .reservedBytes => none

/-- The space and the digits do not depend on where the directive stands. -/
theorem allot_eq {kind : Storage} {a : Int} {ops : List Operand} {al : Allotment}
    (h : kind.allot a ops = .ok al) :
    al.size = kind.extent ops ∧ al.digits = kind.digits? ops := by
  unfold allot at h
  split at h <;> cases h <;> exact ⟨rfl, rfl⟩

theorem extent_nonneg {kind : Storage} {a : Int} {ops : List Operand} {al : Allotment}
    (h : kind.allot a ops = .ok al) (hp : al.problems = []) : 0 ≤ kind.extent ops := by
  rw [← (allot_eq h).1]
  unfold allot at h
  split at h <;> cases h
  · simp
  · exact Int.mul_nonneg (by decide) (Int.natCast_nonneg _)
  · exact Int.mul_nonneg (by decide) (Int.natCast_nonneg _)
  · simp [reservation] at hp ⊢; omega
  · simp
  · exact Int.natCast_nonneg _
  · exact Int.natCast_nonneg _
  · simp [reservation] at hp ⊢; omega

/-- What storage directives leave in all passes: no problem if and only if there was none before,
the operands have a form of the directive and nothing is wrong with the value. -/
theorem clean_iff {σ : Type} (found : σ → List Diagnostic) {before : List Diagnostic} {site : Site}
    {kind : Storage} {a : Int} {ops : List Operand} {refuse : Problem → σ}
    {take : Allotment → List Problem → σ} {s' t : σ}
    (hrefuse : ∀ p, found (refuse p) = before ++ site.report [p])
    (htake : ∀ al ps, found (take al ps) = before ++ site.report ps)
    (ht : ∀ al, kind.allot a ops = .ok al → take al [] = t) :
    ((match kind.allot a ops with
      | .error p => .ok (refuse p)
      | .ok al =>
        (Problem.worded al.problems).map (take al)) = (.ok s' : Except Fault σ) ∧ found s' = []) ↔
      before = [] ∧ (∃ al, kind.allot a ops = .ok al ∧ al.problems = []) ∧ s' = t := by
  cases hal : kind.allot a ops with
  | error p =>
    simp only [Except.ok.injEq, reduceCtorEq, false_and, exists_false, and_false, iff_false,
      not_and]
    rintro rfl
    simp [hrefuse]
  | ok al =>
    rw [map_eq_ok_iff]
    constructor
    · rintro ⟨⟨qs, hqs, rfl⟩, hf⟩
      obtain rfl := Problem.eq_of_worded hqs
      rw [htake, List.append_eq_nil_iff, Site.report_eq_nil_iff] at hf
      exact ⟨hf.1, ⟨al, rfl, hf.2⟩, by rw [hf.2, ht al hal]⟩
    · rintro ⟨hf, ⟨al', hal', hp⟩, rfl⟩
      obtain rfl := Except.ok.inj hal'
      refine ⟨⟨[], by rw [hp]; rfl, ht al hal⟩, ?_⟩
      rw [← ht al hal, htake, hf]
      rfl

/-- The space of a storage directive, counted from its operand: a word has three bytes. -/
def space : Storage → List Operand → Int
  | .words, [op] => 3 * op.size
  | .bytes, [op] => op.size
  | .reservedWords, [.number v] => 3 * v
  | .reservedBytes, [.number v] => v
  | _, _ => 0

theorem extent_eq_space {kind : Storage} {a : Int} {ops : List Operand} {al : Allotment}
    (h : kind.allot a ops = .ok al) :
    kind.extent ops = kind.space ops := by
  rw [← (allot_eq h).1]
  unfold allot at h
  split at h <;> cases h <;> rfl

/-- An accepted directive names only numbers and strings. -/
theorem operands_of_allot {kind : Storage} {a : Int} {ops : List Operand} {al : Allotment}
    (h : kind.allot a ops = .ok al) : ∃ op, ops = [op] ∧ op.referredName? = none := by
  unfold allot at h
  split at h <;> cases h <;> exact ⟨_, rfl, rfl⟩

end Storage

def Line.extent (layout : Layout) (table : OpTable) (l : Line) : Int :=
  match Statement.ofMnemonic layout table l.mnemonic with
  | .storage kind => kind.extent l.operands
  | .command op => op.size
  | _ => 0

def extentOf (layout : Layout) (table : OpTable) : List Line → Int
  | [] => 0
  | l :: ls => l.extent layout table + extentOf layout table ls

/-- The space of a line, counted from its operands or given by its operation. -/
def Line.space (layout : Layout) (table : OpTable) (l : Line) : Int :=
  match Statement.ofMnemonic layout table l.mnemonic with
  | .storage kind => kind.space l.operands
  | .command op => op.size
  | _ => 0

def spaceOf (layout : Layout) (table : OpTable) : List Line → Int
  | [] => 0
  | l :: ls => l.space layout table + spaceOf layout table ls

theorem extentOf_eq_spaceOf {layout : Layout} {table : OpTable} {ls : List Line}
    (h : ∀ l ∈ ls, l.extent layout table = l.space layout table) :
    extentOf layout table ls = spaceOf layout table ls := by
  induction ls with
  | nil => rfl
  | cons l ls ih =>
    rw [extentOf, spaceOf, h l List.mem_cons_self, ih fun k hk => h k (List.mem_cons_of_mem _ hk)]

/-- Lines one after another from an address on, each with the space it takes. -/
def placed (layout : Layout) (table : OpTable) (sec : Option String) :
    Int → List Line → List (Row × Int)
  | _, [] => []
  | a, l :: ls =>
    (⟨a, l, sec⟩, l.extent layout table) :: placed layout table sec (a + l.extent layout table) ls

section Placed

variable (layout : Layout) (table : OpTable) (sec : Option String)

theorem extentOf_append (ls ls' : List Line) :
    extentOf layout table (ls ++ ls') = extentOf layout table ls + extentOf layout table ls' := by
  induction ls with
  | nil => simp [extentOf]
  | cons l ls ih => simp only [List.cons_append, extentOf, ih]; omega

theorem placed_append (a : Int) (ls ls' : List Line) :
    placed layout table sec a (ls ++ ls') =
      placed layout table sec a ls ++ placed layout table sec (a + extentOf layout table ls)
        ls' := by
  induction ls generalizing a with
  | nil => simp [placed, extentOf]
  | cons l ls ih =>
    have e : a + l.extent layout table + extentOf layout table ls = a + extentOf layout table
        (l :: ls) := by
      rw [extentOf]; omega
    rw [List.cons_append, placed, ih, e, placed, List.cons_append]

@[simp] theorem placed_length (a : Int) (ls : List Line) :
    (placed layout table sec a ls).length = ls.length := by
  induction ls generalizing a with
  | nil => rfl
  | cons l ls ih => simp [placed, ih]

theorem placed_map_line (a : Int) (ls : List Line) :
    (placed layout table sec a ls).map (·.1.line) = ls := by
  induction ls generalizing a with
  | nil => rfl
  | cons l ls ih => simp [placed, ih]

theorem snd_of_mem_placed {a : Int} {ls : List Line} {p : Row × Int}
    (h : p ∈ placed layout table sec a ls) :
    p.2 = p.1.line.extent layout table := by
  induction ls generalizing a with
  | nil => cases h
  | cons l ls ih =>
    rcases List.mem_cons.1 h with rfl | h
    · rfl
    · exact ih h

/-- A placed line stands behind the space of the lines before it. -/
theorem mem_placed_iff {a : Int} {ls : List Line} {p : Row × Int} :
    p ∈ placed layout table sec a ls ↔
    ∃ pre l post, ls = pre ++ l :: post ∧
    p = (⟨a + extentOf layout table pre, l, sec⟩, l.extent layout table) := by
  constructor
  · intro hp
    induction ls generalizing a with
    | nil => cases hp
    | cons k ls ih =>
      rcases List.mem_cons.1 hp with rfl | hp
      · exact ⟨[], k, ls, rfl, by simp [extentOf]⟩
      · obtain ⟨pre, l, post, rfl, rfl⟩ := ih hp
        exact ⟨k :: pre, l, post, rfl, by rw [extentOf, Int.add_assoc]⟩
  · rintro ⟨pre, l, post, rfl, rfl⟩
    rw [placed_append, placed]
    simp

/-- Between placed rows and a row right behind them the distances are the spaces. -/
theorem sizedRows_placed (a : Int) (ls : List Line) (r : Row) (rs : List Row)
    (hr : r.address = a + extentOf layout table ls) :
    sizedRows ((placed layout table sec a ls).map (·.1) ++ r :: rs) =
      placed layout table sec a ls ++ sizedRows (r :: rs) := by
  induction ls generalizing a with
  | nil => simp [placed]
  | cons l ls ih =>
    have hr' : r.address = a + l.extent layout table + extentOf layout table ls := by
      rw [hr, extentOf]; omega
    have ih := ih _ hr'
    cases ls with
    | nil =>
      simp only [placed, List.map_cons, List.map_nil, List.cons_append, List.nil_append, sizedRows]
      simp only [extentOf] at hr'
      rw [show r.address - a = l.extent layout table by omega]
    | cons l' ls =>
      simp only [placed, List.map_cons, List.cons_append, sizedRows] at ih ⊢
      rw [ih, show a + l.extent layout table - a = l.extent layout table by omega]

end Placed

/-! ## Lines that fit -/

/-- Nothing is wrong with what a line of the body asks for at an address. -/
def Line.Fits (layout : Layout) (table : OpTable) (use : NameUse) (a : Int) (l : Line) : Prop :=
  match Statement.ofMnemonic layout table l.mnemonic with
  | .storage kind => ∃ al, kind.allot a l.operands = .ok al ∧ al.problems = []
  | .command op =>
    commandProblems layout a l.mnemonic op.size l.operands = .ok [] ∧
      nameUseProblems use l.operands = []
  | _ => False

/-- The operations of a table have sizes that a layout knows. -/
def OpTable.Sized (layout : Layout) (table : OpTable) : Prop :=
  ∀ m op, table.get? m = some op → op.size ∈ layout.commandSizes

theorem OpTable.sized_of_forall {layout : Layout} {table : OpTable}
    (h : ∀ e ∈ table.entries, e.2.size ∈ layout.commandSizes) :
    table.Sized layout := fun m op hop => h (m, op) (OrderedMap.mem_entries_of_get? hop)

/-- No mnemonic of a table is one of the given directives. -/
def OpTable.Avoids (table : OpTable) (directives : List String) : Prop :=
  ∀ m ∈ directives, table.get? m = none

section Fits

variable {layout : Layout} {table : OpTable} {use : NameUse} {a : Int} {l : Line}

/-- A line that fits is a storage directive or a command. -/
theorem Line.Fits.cases (h : l.Fits layout table use a) :
    (∃ kind al, Statement.ofMnemonic layout table l.mnemonic = .storage kind ∧
      kind.allot a l.operands = .ok al ∧
      al.problems = []) ∨
    (∃ op, Statement.ofMnemonic layout table l.mnemonic = .command op ∧
      commandProblems layout a l.mnemonic op.size l.operands = .ok [] ∧
      nameUseProblems use l.operands = []) := by
  unfold Line.Fits at h
  split at h
  · next kind hk =>
    obtain ⟨al, hal, hp⟩ := h
    exact .inl ⟨kind, al, hk, hal, hp⟩
  · next op hop => exact .inr ⟨op, hop, h⟩
  · cases h

/-- The directives that frame a program do not fit into its body. -/
theorem Line.Fits.not_frame (h : l.Fits layout table use a) :
    l.mnemonic ≠ "START" ∧ l.mnemonic ≠ "END" := by
  refine ⟨fun hl => ?_, fun hl => ?_⟩
  · rw [Line.Fits, (Statement.ofMnemonic_eq_start_iff _ _ _).2 hl] at h
    exact h
  · rw [Line.Fits, (Statement.ofMnemonic_eq_finish_iff _ _ _).2 hl] at h
    exact h

theorem OpTable.Sized.mem_commandSizes (ht : table.Sized layout) {m : String} {op : Operation}
    (h : Statement.ofMnemonic layout table m = .command op) : op.size ∈ layout.commandSizes :=
  ht m op (Statement.stands_of_eq h).1

theorem Line.Fits.admitted (ht : table.Sized layout) (h : l.Fits layout table use a)
    {op : Operation} (hop : Statement.ofMnemonic layout table l.mnemonic = .command op) :
    Admitted op.size l.operands := by
  rw [Line.Fits, hop] at h
  exact ((commandProblems_eq_nil_iff (ht.mem_commandSizes hop) _ _ _).1 h.1).1

theorem extent_of_storage {kind : Storage}
    (h : Statement.ofMnemonic layout table l.mnemonic = .storage kind) :
    l.extent layout table = kind.extent l.operands := by
  simp [Line.extent, h]

theorem extent_of_command {op : Operation}
    (h : Statement.ofMnemonic layout table l.mnemonic = .command op) :
    l.extent layout table = op.size := by
  simp [Line.extent, h]

theorem Line.Fits.extent_nonneg (ht : table.Sized layout) (h : l.Fits layout table use a) :
    0 ≤ l.extent layout table := by
  rcases h.cases with ⟨kind, al, hk, hal, hp⟩ | ⟨op, hop, hc, -⟩
  · rw [extent_of_storage hk]
    exact Storage.extent_nonneg hal hp
  · rw [extent_of_command hop]
    have := Layout.mem_commandSizes (ht.mem_commandSizes hop)
    omega

theorem Line.Fits.extent_eq_space (h : l.Fits layout table use a) :
    l.extent layout table = l.space layout table := by
  rcases h.cases with ⟨kind, al, hk, hal, -⟩ | ⟨op, hop, -⟩
  · rw [extent_of_storage hk, Storage.extent_eq_space hal, Line.space, hk]
  · rw [extent_of_command hop, Line.space, hop]

/-- Lines that take space forwards lie between the first address and the last one. -/
theorem bounds_of_nonneg {sec : Option String} {ls : List Line}
    (h : ∀ p ∈ placed layout table sec a ls, 0 ≤ p.2) :
    0 ≤ extentOf layout table ls ∧ ∀ p ∈ placed layout table sec a ls,
      a ≤ p.1.address ∧ p.1.address + p.2 ≤ a + extentOf layout table ls := by
  induction ls generalizing a with
  | nil => simp [placed, extentOf]
  | cons l ls ih =>
    have hl : 0 ≤ l.extent layout table := h _ List.mem_cons_self
    obtain ⟨hrest, hmem⟩ := ih fun p hp => h p (List.mem_cons_of_mem _ hp)
    refine ⟨by rw [extentOf]; omega, fun p hp => ?_⟩
    rw [extentOf]
    rcases List.mem_cons.1 hp with rfl | hp
    · exact ⟨by simp, by simp only; omega⟩
    · obtain ⟨h1, h2⟩ := hmem p hp
      exact ⟨by omega, by omega⟩

/-- Two of them that take space do not stand at one address. -/
theorem eq_of_address_eq {sec : Option String} {ls : List Line}
    (h : ∀ p ∈ placed layout table sec a ls, 0 ≤ p.2) {p q : Row × Int}
    (hp : p ∈ placed layout table sec a ls) (hq : q ∈ placed layout table sec a ls) (hp' : 0 < p.2)
    (hq' : 0 < q.2) (haddress : p.1.address = q.1.address) : p = q := by
  induction ls generalizing a with
  | nil => cases hp
  | cons l ls ih =>
    have hrest := fun p hp => h p (List.mem_cons_of_mem _ hp)
    have hbehind := fun p hp => ((bounds_of_nonneg hrest).2 p hp).1
    cases List.mem_cons.1 hp with
    | inl hfirst =>
      cases List.mem_cons.1 hq with
      | inl hfirst' => rw [hfirst, hfirst']
      | inr hq =>
        have hle := hbehind q hq
        subst hfirst
        simp only at haddress hp'
        omega
    | inr hp =>
      cases List.mem_cons.1 hq with
      | inl hfirst =>
        have hle := hbehind p hp
        subst hfirst
        simp only at haddress hq'
        omega
      | inr hq => exact ih hrest hp hq

/-- Lines that fit lie between the first address and the last one. -/
theorem bounds_of_mem_placed {sec : Option String} {ls : List Line} (ht : table.Sized layout)
    (hfit : ∀ p ∈ placed layout table sec a ls, p.1.line.Fits layout table use p.1.address) :
    0 ≤ extentOf layout table ls ∧ ∀ p ∈ placed layout table sec a ls,
      a ≤ p.1.address ∧ 0 ≤ p.2 ∧ p.1.address + p.2 ≤ a + extentOf layout table ls := by
  have hnonneg : ∀ p ∈ placed layout table sec a ls, 0 ≤ p.2 := fun p hp => by
    rw [snd_of_mem_placed layout table sec hp]
    exact (hfit p hp).extent_nonneg ht
  obtain ⟨hextent, hbounds⟩ := bounds_of_nonneg hnonneg
  exact ⟨hextent, fun p hp => ⟨(hbounds p hp).1, hnonneg p hp, (hbounds p hp).2⟩⟩

end Fits

/-! ## Labels -/

/-- The address of the last row that carries a label. -/
def addressOf : List Row → String → Option Int
  | [], _ => none
  | r :: rs, x => (addressOf rs x).or (if r.line.name? = some x then some r.address else none)

theorem addressOf_append (rs rs' : List Row) (x : String) :
    addressOf (rs ++ rs') x = (addressOf rs' x).or (addressOf rs x) := by
  induction rs with
  | nil => simp [addressOf]
  | cons r rs ih => simp [addressOf, ih, Option.or_assoc]

theorem addressOf_eq_none_iff {rs : List Row} {x : String} :
    addressOf rs x = none ↔ ∀ r ∈ rs, r.line.name? ≠ some x := by
  induction rs with
  | nil => simp [addressOf]
  | cons r rs ih => simp [addressOf, ih, and_comm]

theorem exists_of_addressOf {rs : List Row} {x : String} {a : Int} (h : addressOf rs x = some a) :
    ∃ r ∈ rs, r.line.name? = some x ∧ r.address = a := by
  induction rs with
  | nil => cases h
  | cons r rs ih =>
    rw [addressOf, Option.or_eq_some_iff] at h
    rcases h with h | ⟨-, h⟩
    · obtain ⟨q, hq, hx⟩ := ih h
      exact ⟨q, List.mem_cons_of_mem _ hq, hx⟩
    · split at h
      · next hx => exact ⟨r, List.mem_cons_self, hx, Option.some.inj h⟩
      · cases h

/-- What is known of labels after a line at an address. -/
def labelled (known : String → Option Int) (a : Int) (l : Line) (x : String) : Option Int :=
  if l.name? = some x then some a else known x

theorem addressOf_concat (rs : List Row) (r : Row) :
    addressOf (rs ++ [r]) = labelled (addressOf rs) r.address r.line := by
  funext x
  rw [addressOf_append, labelled]
  simp only [addressOf]
  split <;> simp

/-- The label of a line is not known yet. -/
def Fresh (known : String → Option Int) (l : Line) : Prop := ∀ x, l.name? = some x → known x = none

def Line.LabelFits (a : Int) (l : Line) : Prop := l.name?.isSome = true → InMemory a

theorem labelled_of_none {known : String → Option Int} {a : Int} {l : Line} (h : l.name? = none) :
    labelled known a l = known := by
  funext x
  simp [labelled, h]

theorem labelled_of_some {known : String → Option Int} {a : Int} {l : Line} {x : String}
    (h : l.name? = some x) :
    labelled known a l = fun y => if x = y then some a else known y := by
  funext y
  simp [labelled, h]

/-- A condition on every line of a body, given where the line stands and which labels are known
before it. -/
def AllAlong (layout : Layout) (table : OpTable) (P : Int → (String → Option Int) → Line → Prop) :
    Int → (String → Option Int) → List Line → Prop
  | _, _, [] => True
  | a, known, l :: ls =>
    P a known l ∧ AllAlong layout table P (a + l.extent layout table) (labelled known a l) ls

/-- Nothing is wrong with a line of a flat body: it fits, and its label is new and stands in
memory. -/
structure Line.FitsAt (layout : Layout) (table : OpTable) (use : NameUse) (a : Int)
    (known : String → Option Int) (l : Line) :
    Prop where
  fresh : Fresh known l
  label : l.LabelFits a
  fits : l.Fits layout table use a

theorem Line.fitsAt_iff {layout : Layout} {table : OpTable} {use : NameUse} {a : Int}
    {known : String → Option Int} {l : Line} :
    l.FitsAt layout table use a known ↔ Fresh known l ∧ l.LabelFits a ∧ l.Fits layout table use a :=
  ⟨fun h => ⟨h.fresh, h.label, h.fits⟩, fun h => ⟨h.1, h.2.1, h.2.2⟩⟩

/-- Nothing is wrong with the lines of a flat body from an address on. -/
def BodyFits (layout : Layout) (table : OpTable) (use : NameUse) : Int → (String → Option Int) →
    List Line → Prop :=
  AllAlong layout table (Line.FitsAt layout table use)

section Along

variable {layout : Layout} {table : OpTable} {a : Int} {known : String → Option Int}
  {ls : List Line}

theorem allAlong_and_iff {P Q : Int → (String → Option Int) → Line → Prop} :
    AllAlong layout table (fun a known l => P a known l ∧ Q a known l) a known ls ↔
      AllAlong layout table P a known ls ∧ AllAlong layout table Q a known ls := by
  induction ls generalizing a known with
  | nil => simp [AllAlong]
  | cons l ls ih => simp only [AllAlong, ih]; exact and_and_and_comm

theorem allAlong_line_iff {P : Line → Prop} : AllAlong layout table (fun _ _ l => P l) a known ls ↔
    ∀ l ∈ ls, P l := by
  induction ls generalizing a known with
  | nil => simp [AllAlong]
  | cons l ls ih => simp [AllAlong, ih]

theorem AllAlong.imp {P Q : Int → (String → Option Int) → Line → Prop}
    (h : ∀ a known l, P a known l → Q a known l) (hp : AllAlong layout table P a known ls) :
    AllAlong layout table Q a known ls := by
  induction ls generalizing a known with
  | nil => trivial
  | cons l ls ih => exact ⟨h _ _ _ hp.1, ih hp.2⟩

theorem BodyFits.fits {use : NameUse} {sec : Option String}
    (h : BodyFits layout table use a known ls) :
    ∀ p ∈ placed layout table sec a ls, p.1.line.Fits layout table use p.1.address := by
  induction ls generalizing a known with
  | nil => simp [placed]
  | cons l ls ih =>
    obtain ⟨hl, hrest⟩ := h
    intro p hp
    rcases List.mem_cons.1 hp with rfl | hp
    · exact hl.fits
    · exact ih hrest p hp

theorem BodyFits.line_fits {use : NameUse} (h : BodyFits layout table use a known ls) {l : Line}
    (hl : l ∈ ls) :
    ∃ b, l.Fits layout table use b := by
  rw [← placed_map_line layout table none a ls, List.mem_map] at hl
  obtain ⟨p, hp, rfl⟩ := hl
  exact ⟨_, h.fits p hp⟩

theorem BodyFits.not_frame {use : NameUse} (h : BodyFits layout table use a known ls) :
    ∀ l ∈ ls, l.mnemonic ≠ "START" ∧ l.mnemonic ≠ "END" := by
  intro l hl
  obtain ⟨b, hfit⟩ := h.line_fits hl
  exact hfit.not_frame

theorem BodyFits.extent_eq_space {use : NameUse} (h : BodyFits layout table use a known ls) :
    ∀ l ∈ ls, l.extent layout table = l.space layout table := by
  intro l hl
  obtain ⟨b, hfit⟩ := h.line_fits hl
  exact hfit.extent_eq_space

end Along

end Assembler
