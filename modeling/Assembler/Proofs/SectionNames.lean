import Mathlib.Data.List.Pairwise
import Assembler.Proofs.Sections

/-! # Names that the lines of a section share

The first of two passes admits a line only if its label and its linkage go together with the names
that the lines before it have left (`NameTable.Admits`).  Lines admitted one after another are
compatible in pairs, and then every name has the address of the one line that carries it and the
linkage of the one line that declares it. -/

namespace Assembler
set_option autoImplicit false

/-- The line exports or imports a name. -/
def Line.Declares (l : Line) (x : String) : Prop := l.Exports x ∨ l.Imports x

/-- Two lines that may stand in one section: they do not carry the same name, neither carries a name
that the other imports, and they do not declare the same name. -/
structure Line.Compatible (l l' : Line) : Prop where
  labels : ∀ x, l.name? = some x → l'.name? ≠ some x
  label_import : ∀ x, l.name? = some x → ¬ l'.Imports x
  import_label : ∀ x, l.Imports x → l'.name? ≠ some x
  declarations : ∀ x, l.Declares x → ¬ l'.Declares x

theorem Line.Compatible.symm {l l' : Line} (h : l.Compatible l') : l'.Compatible l where
  labels x hx' hx := h.labels x hx hx'
  label_import x hx' hx := h.import_label x hx hx'
  import_label x hx' hx := h.label_import x hx hx'
  declarations x hx' hx := h.declarations x hx hx'

/-- A line that declares a name carries none. -/
theorem Line.LinkFits.name?_of_declares {table : OpTable} {use : NameUse} {a : Int} {l : Line}
    (h : l.LinkFits table use a) {x : String} (hx : l.Declares x) : l.name? = none := by
  rcases h with h | ⟨-, hname, -⟩
  · rcases hx with hx | hx
    · simp [Line.Fits, (Statement.ofMnemonic_eq_exportName_iff table _).2 hx.1] at h
    · simp [Line.Fits, (Statement.ofMnemonic_eq_importName_iff table _).2 hx.1] at h
  · exact hname

namespace NameTable

variable {strategy : Strategy} {table : OpTable} {N : NameTable} {l : Line} {x : String}
  {rs : List Row}

/-! ## Linkage and address after rows -/

theorem exported_afterRows (hN : ¬ N.Imported x) (himp : ∀ r ∈ rs, ¬ r.line.Imports x) :
    (afterRows strategy table N rs).linkage? x = some .exported ↔
      N.linkage? x = some .exported ∨ ∃ r ∈ rs, r.line.Exports x := by
  induction rs generalizing N with
  | nil => simp [afterRows]
  | cons r rs ih =>
    have hr : ¬ r.line.Imports x := himp r List.mem_cons_self
    have hafter : ¬ (N.after strategy table r.address r.line).Imported x :=
      fun h => (imported_after.1 h).elim hN hr
    have hlinkage : (N.after strategy table r.address r.line).linkage? x = some .exported ↔
        N.linkage? x = some .exported ∨ r.line.Exports x := by
      rw [linkage?_after, if_neg hr]
      split_ifs with hexp
      · cases h : N.linkage? x with
        | none => simp [hexp]
        | some k => cases k <;> simp_all [Imported]
      · simp [hexp]
    rw [afterRows, ih hafter fun q hq => himp q (List.mem_cons_of_mem _ hq), hlinkage]
    simp [or_assoc]

theorem address?_afterRows_of_unlabelled (hN : N.address? x = none)
    (hrs : ∀ r ∈ rs, r.line.name? ≠ some x) :
    (afterRows strategy table N rs).address? x = none := by
  induction rs generalizing N with
  | nil => exact hN
  | cons r rs ih =>
    refine ih ?_ fun q hq => hrs q (List.mem_cons_of_mem _ hq)
    by_cases himp : r.line.Imports x
    · have hexp : ¬ r.line.Exports x := fun h => h.not_imports himp
      simp [address?, after, hexp, himp]
    · rw [address?_after himp, if_neg (hrs r List.mem_cons_self), hN]

/-! ## Lines that are admitted -/

/-- The first of two passes admits a line after some names: its label is new, or exported and still
without an address, and if it declares a name it carries none and the name has no linkage, and if it
imports one the name is new. -/
structure Admits (N : NameTable) (l : Line) : Prop where
  label : ∀ x, l.name? = some x → ¬ N.Imported x ∧ N.address? x = none
  exported : ∀ x, l.Exports x → l.name? = none ∧ N.linkage? x = none
  imported : ∀ x, l.Imports x → l.name? = none ∧ N x = none

/-- A line that is admitted is compatible with all lines before it. -/
theorem Admits.compatible (h : (afterRows .twoPass table (fun _ => none) rs).Admits l) {q : Row}
    (hq : q ∈ rs) :
    q.line.Compatible l := by
  have hunknown : ∀ x, afterRows .twoPass table (fun _ => none) rs x = none →
      q.line.name? ≠ some x ∧ ¬ q.line.Declares x := by
    intro x hx
    have hnone : ¬ (afterRows .twoPass table (fun _ => none) rs x).isSome = true := by simp [hx]
    rw [isSome_afterRows] at hnone
    exact ⟨fun hn => hnone (.inr ⟨q, hq, .inl hn⟩),
      fun hd => hnone (.inr ⟨q, hq, by rcases hd with hd | hd <;> simp [hd]⟩)⟩
  have hlabel : ∀ x, l.name? = some x → q.line.name? ≠ some x ∧ ¬ q.line.Imports x := by
    intro x hx
    obtain ⟨himp, haddr⟩ := h.label x hx
    have hnot : ∀ r ∈ rs, ¬ r.line.Imports x :=
      fun r hr hi => himp (imported_afterRows_empty.2 ⟨r, hr, hi⟩)
    rw [address?_afterRows hnot] at haddr
    exact ⟨addressOf_eq_none_iff.1 (Option.or_eq_none_iff.1 haddr).1 q hq, hnot q hq⟩
  have hexport : ∀ x, l.Exports x → ¬ q.line.Declares x := by
    intro x hx
    have hlinkage := (h.exported x hx).2
    have hnot : ∀ r ∈ rs, ¬ r.line.Imports x := fun r hr hi => by
      have himported : (afterRows .twoPass table (fun _ => none) rs).Imported x :=
        imported_afterRows_empty.2 ⟨r, hr, hi⟩
      rw [Imported, hlinkage] at himported
      cases himported
    rintro (he | hi)
    · have hexported : (afterRows .twoPass table (fun _ => none) rs).linkage? x = some .exported :=
        (exported_afterRows (by simp [Imported, linkage?]) hnot).2 (.inr ⟨q, hq, he⟩)
      rw [hlinkage] at hexported
      cases hexported
    · exact hnot q hq hi
  exact
    { labels := fun x hq hl => (hlabel x hl).1 hq
      label_import := fun x hq hl => (hunknown x (h.imported x hl).2).1 hq
      import_label := fun x hq hl => (hlabel x hl).2 hq
      declarations :=
        fun x hq hl => hl.elim (fun hl => hexport x hl hq) fun hl =>
          (hunknown x (h.imported x hl).2).2 hq }

/-! ## Names of compatible lines -/

section

variable (hc : rs.Pairwise fun q r => q.line.Compatible r.line)

include hc

theorem compatible_of_ne {q r : Row} (hq : q ∈ rs) (hr : r ∈ rs) (hne : q ≠ r) :
    q.line.Compatible r.line :=
  have : Std.Symm fun q r : Row => q.line.Compatible r.line := ⟨fun _ _ h => h.symm⟩
  hc.forall hq hr hne

theorem eq_of_name?_eq {q r : Row} (hq : q ∈ rs) (hr : r ∈ rs) (hqx : q.line.name? = some x)
    (hrx : r.line.name? = some x) :
    q = r := by
  by_contra hne
  exact (compatible_of_ne hc hq hr hne).labels x hqx hrx

/-- A name is exported if and only if a line exports it. -/
theorem exported_iff : (afterRows strategy table (fun _ => none) rs).linkage? x = some .exported ↔
    ∃ r ∈ rs, r.line.Exports x := by
  by_cases himp : ∃ q ∈ rs, q.line.Imports x
  · obtain ⟨q, hq, hqx⟩ := himp
    have himported : (afterRows strategy table (fun _ => none) rs).linkage? x = some .imported :=
      imported_afterRows_empty.2 ⟨q, hq, hqx⟩
    rw [himported]
    refine iff_of_false (by simp) ?_
    rintro ⟨r, hr, hrx⟩
    have hne : q ≠ r := fun h => hrx.not_imports (h ▸ hqx)
    exact (compatible_of_ne hc hq hr hne).declarations x (.inr hqx) (.inl hrx)
  · rw [exported_afterRows (by simp [Imported, linkage?]) fun r hr hi => himp ⟨r, hr, hi⟩]
    simp [linkage?]

variable (hbare : ∀ r ∈ rs, ∀ x, r.line.Declares x → r.line.name? = none)

include hbare

theorem not_imports_of_name? {q r : Row} (hq : q ∈ rs) (hr : r ∈ rs) (hqx : q.line.name? = some x) :
    ¬ r.line.Imports x := by
  intro hi
  by_cases hqr : q = r
  · rw [hqr, hbare r hr x (.inr hi)] at hqx
    cases hqx
  · exact (compatible_of_ne hc hq hr hqr).label_import x hqx hi

/-- A name has the address of the line that carries it. -/
theorem address?_eq_some_iff {a : Int} :
    (afterRows strategy table (fun _ => none) rs).address? x = some a ↔
    ∃ r ∈ rs, r.line.name? = some x ∧ r.address = a := by
  have haddr : (afterRows strategy table (fun _ => none) rs).address? x = addressOf rs x := by
    by_cases hx : ∃ q ∈ rs, q.line.name? = some x
    · obtain ⟨q, hq, hqx⟩ := hx
      rw [address?_afterRows fun r hr => not_imports_of_name? hc hbare hq hr hqx]
      exact Option.or_none
    · have hno : ∀ r ∈ rs, r.line.name? ≠ some x := fun r hr hrx => hx ⟨r, hr, hrx⟩
      rw [address?_afterRows_of_unlabelled rfl hno, addressOf_eq_none_iff.2 hno]
  rw [haddr]
  refine ⟨exists_of_addressOf, ?_⟩
  rintro ⟨r, hr, hrx, hra⟩
  cases h : addressOf rs x with
  | none => exact absurd hrx (addressOf_eq_none_iff.1 h r hr)
  | some b =>
    obtain ⟨q, hq, hqx, rfl⟩ := exists_of_addressOf h
    rw [eq_of_name?_eq hc hq hr hqx hrx, hra]

end

end NameTable

end Assembler
