import Mathlib.Data.List.Induction
import Assembler.Assembly
import Assembler.Proofs.SectionedPass

/-! # References that are filled in later

One pass over a section lets a reference wait only if it is the first line that meets its name.  A
reference that comes second, or behind an export of its name, and still before the line that carries
the name, is `Overlooked`: it is never filled in.  A name can also be imported behind a reference
that was filled in already (`Withdrawn`).  All other references carry the right digits
(`references_filled_iff`). -/

namespace Assembler
set_option autoImplicit false

/-! ## Digits of addresses -/

namespace Text

theorem hex_ne_empty (c : LetterCase) (width : Nat) (v : Int) : hex c width v ≠ "" := by
  have hdigits : ∀ n, digits c 16 n ≠ [] := fun n => by
    unfold digits
    cases c <;> simp [Nat.toDigits_ne_nil]
  intro h
  have hlist := congrArg String.toList h
  simp only [hex, formatInt, String.toList_ofList, String.toList_empty] at hlist
  split at hlist
  · cases hlist
  · exact hdigits _ (List.append_eq_nil_iff.1 hlist).2

theorem eq_zero_of_digits {c : LetterCase} {n : Nat} (h : ∀ d ∈ digits c 16 n, d = '0') :
    n = 0 := by
  have hchar : ∀ m < 16, Nat.digitChar m = '0' ∨ (Nat.digitChar m).toUpper = '0' →
      m = 0 := by decide
  have hlast : ∀ d ∈ Nat.toDigits 16 n, d = '0' ∨ d.toUpper = '0' := by
    intro d hd
    cases c with
    | lower => exact .inl (h d hd)
    | upper => exact .inr (h _ (List.mem_map_of_mem hd))
  clear h
  induction n using Nat.strongRecOn with
  | ind n ih =>
    by_cases hn : n < 16
    · rw [Nat.toDigits_of_lt_base hn] at hlast
      exact hchar n hn (hlast _ (by simp))
    · rw [Nat.toDigits_of_base_le (by decide) (by omega)] at hlast
      have := ih (n / 16) (by omega) fun d hd => hlast d (List.mem_append_left _ hd)
      omega

theorem eq_zero_of_address {v : Int} (h : address v = address 0) : v = 0 := by
  have hzero : (address 0).toList = List.replicate 6 '0' := by decide
  have hlist : (address v).toList = List.replicate 6 '0' := by rw [h, hzero]
  simp only [address, hex, formatInt, String.toList_ofList] at hlist
  split at hlist
  · simp [List.replicate_succ] at hlist
  · have hdigits : ∀ d ∈ digits .upper 16 v.natAbs, d = '0' := fun d hd => by
      have hmem : d ∈ padLeft 6 (digits .upper 16 v.natAbs) := List.mem_append_right _ hd
      rw [hlist] at hmem
      exact List.eq_of_mem_replicate hmem
    have := eq_zero_of_digits hdigits
    omega

end Text

/-! ## Rows that carry a name -/

/-- The address of the first of some rows that carries a name. -/
def firstAddress (rs : List Row) (x : String) : Option Int :=
  (rs.find? fun r => r.line.name? = some x).map (·.address)

theorem firstAddress_append (rs rs' : List Row) (x : String) :
    firstAddress (rs ++ rs') x = (firstAddress rs x).or (firstAddress rs' x) := by
  unfold firstAddress
  rw [List.find?_append]
  cases rs.find? _ <;> rfl

theorem firstAddress_eq_none_iff {rs : List Row} {x : String} :
    firstAddress rs x = none ↔ ∀ r ∈ rs, r.line.name? ≠ some x := by
  simp [firstAddress]

theorem exists_of_firstAddress {rs : List Row} {x : String} {b : Int}
    (h : firstAddress rs x = some b) :
    ∃ q ∈ rs, q.line.name? = some x ∧ q.address = b := by
  obtain ⟨q, hq, rfl⟩ := Option.map_eq_some_iff.1 h
  exact ⟨q, List.mem_of_find?_eq_some hq, by simpa using List.find?_some hq, rfl⟩

theorem firstAddress_cons_self {r : Row} {x : String} (h : r.line.name? = some x) (rs : List Row) :
    firstAddress (r :: rs) x = some r.address := by
  simp [firstAddress, h]

theorem firstAddress_singleton (r : Row) (x : String) :
    firstAddress [r] x = if r.line.name? = some x then some r.address else none := by
  unfold firstAddress
  split <;> simp_all

namespace NameTable

variable {table : OpTable} {rs : List Row} {x : String}

theorem TakesAll.left {rs' : List Row} (h : TakesAll table (rs ++ rs')) : TakesAll table rs :=
  fun pre r post heq =>
  h pre r (post ++ rs') (by simp [heq])

/-- A name that is not imported is carried by one row, whose address it has. -/
theorem TakesAll.address?_afterRows (h : TakesAll table rs) (himp : ∀ r ∈ rs, ¬ r.line.Imports x) :
    (afterRows .onePass table (fun _ => none) rs).address? x = firstAddress rs x := by
  induction rs using List.reverseRecOn with
  | nil => rfl
  | append_singleton rs r ih =>
    have ih := ih h.left fun q hq => himp q (List.mem_append_left _ hq)
    have hr : ¬ r.line.Imports x := himp r (by simp)
    rw [afterRows_append, firstAddress_append, firstAddress_singleton, ← ih]
    rw [afterRows, afterRows, address?_after hr]
    split
    · next hx => rw [(h rs r [] rfl).label x hx, Option.none_or]
    · rw [Option.or_none]

theorem TakesAll.firstAddress_eq (h : TakesAll table rs) (himp : ∀ r ∈ rs, ¬ r.line.Imports x)
    {r : Row} (hr : r ∈ rs) (hx : r.line.name? = some x) : firstAddress rs x = some r.address := by
  obtain ⟨pre, post, rfl⟩ := List.append_of_mem hr
  have hnone : firstAddress pre x = none := by
    rw [← TakesAll.address?_afterRows h.left fun q hq => himp q (List.mem_append_left _ hq)]
    exact (h pre r post rfl).label x hx
  rw [firstAddress_append, hnone, Option.none_or, firstAddress_cons_self hx]

/-- A name is imported once. -/
theorem TakesAll.not_imports {pre post : List Row} {r q : Row}
    (h : TakesAll table (pre ++ r :: post)) (hq : q ∈ pre) (hx : q.line.Imports x) :
    ¬ r.line.Imports x := fun hr => by
  have himp : (afterRows .onePass table (fun _ => none) pre).Imported x :=
    imported_afterRows.2 (.inr ⟨q, hq, hx⟩)
  rw [Imported, ((h pre r post rfl).linkage x (.inr hr)).2] at himp
  cases himp

end NameTable

namespace OnePass

/-- The entry at the first row that carries a name has the address of the row. -/
theorem exists_of_firstEntry {table : OpTable} {x : String} {N : NameTable} {rs : List Row}
    {e : Entry (Option Int)} (h : firstEntry table x N rs = some e) :
    ∃ mid q rest, rs = mid ++ q :: rest ∧ (∀ r ∈ mid, r.line.name? ≠ some x) ∧
      q.line.name? = some x ∧
      e = ⟨some q.address, (NameTable.afterRows .onePass table N mid).linkage? x⟩ := by
  induction rs generalizing N with
  | nil => cases h
  | cons r rs ih =>
    rw [firstEntry] at h
    split at h
    · next hx =>
      rw [NameTable.label_self hx] at h
      exact ⟨[], r, rs, rfl, by simp, hx, (Option.some.inj h).symm⟩
    · next hx =>
      obtain ⟨mid, q, rest, rfl, hmid, hq, rfl⟩ := ih h
      exact ⟨r :: mid, q, rest, rfl, List.forall_mem_cons.2 ⟨hx, hmid⟩, hq, rfl⟩

/-! ## The names when a row is read -/

/-- The names when a row behind others is read. -/
def namesAt (table : OpTable) (pre : List Row) (r : Row) : NameTable :=
  (NameTable.afterRows .onePass table (fun _ => none) pre).label r.address r.line

/-- A reference to a name that an export directive or another reference has brought into the table
before, while no line has given it an address yet.  Such a reference is not put on the list of those
that wait. -/
def Overlooked (table : OpTable) (pre : List Row) (r : Row) (x : String) : Prop :=
  (∃ q ∈ pre, q.line.Exports x ∨ q.line.RefersTo table x) ∧ (∀ q ∈ pre, ¬ q.line.Imports x) ∧
    ∀ q ∈ pre ++ [r], q.line.name? ≠ some x

/-- A reference to a name that is imported behind it, although a line before the import carries the
name at an address other than zero. -/
def Withdrawn (pre : List Row) (r : Row) (post : List Row) (x : String) : Prop :=
  ∃ mid e rest, post = mid ++ e :: rest ∧ e.line.Imports x ∧ ∃ q ∈ pre ++ r :: mid,
    q.line.name? = some x ∧ q.address ≠ 0

instance (table : OpTable) (pre : List Row) (r : Row) (x : String) :
    Decidable (Overlooked table pre r x) :=
  inferInstanceAs (Decidable (_ ∧ _))

section

variable {table : OpTable} {pre post : List Row} {r : Row} {size : Int} {x : String}

theorem imported_namesAt : (namesAt table pre r).Imported x ↔ ∃ q ∈ pre, q.line.Imports x := by
  rw [NameTable.Imported, namesAt, NameTable.linkage?_label]
  exact NameTable.imported_afterRows_empty

theorem address?_namesAt (h : NameTable.TakesAll table (pre ++ [r]))
    (himp : ∀ q ∈ pre, ¬ q.line.Imports x) :
    (namesAt table pre r).address? x = firstAddress (pre ++ [r]) x := by
  rw [namesAt, NameTable.address?_label, firstAddress_append, firstAddress_singleton,
    ← h.left.address?_afterRows himp]
  split
  · next hx => rw [(h pre r [] rfl).label x hx, Option.none_or]
  · rw [Option.or_none]

theorem linkage_of_namesAt {e : Entry (Option Int)} (he : namesAt table pre r x = some e) :
    e.linkage = some .imported ↔ ∃ q ∈ pre, q.line.Imports x := by
  have himported : (namesAt table pre r).Imported x ↔ ∃ q ∈ pre, q.line.Imports x :=
    imported_namesAt
  rw [NameTable.Imported, NameTable.linkage?, he] at himported
  exact himported

theorem address_of_namesAt (h : NameTable.TakesAll table (pre ++ [r])) {e : Entry (Option Int)}
    (he : namesAt table pre r x = some e) (himp : ∀ q ∈ pre, ¬ q.line.Imports x) :
    e.address = firstAddress (pre ++ [r]) x := by
  rw [← address?_namesAt h himp, NameTable.address?, he]
  rfl

theorem isSome_namesAt : (namesAt table pre r x).isSome = true ↔ r.line.name? = some x ∨
    ∃ q ∈ pre, q.line.name? = some x ∨ q.line.Exports x ∨ q.line.Imports x ∨
    q.line.RefersTo table x := by
  have hpre : (NameTable.afterRows .onePass table (fun _ => none) pre x).isSome = true ↔ _ :=
    NameTable.isSome_afterRows
  unfold namesAt
  by_cases hx : r.line.name? = some x
  · simp [NameTable.label_self hx, hx]
  · rw [NameTable.label_of_ne hx, hpre]
    simp [hx]

theorem overlooked_iff (h : NameTable.TakesAll table (pre ++ [r])) :
    Overlooked table pre r x ↔ ∃ e, namesAt table pre r x = some e ∧ e.direct? = none := by
  have hdirect : ∀ e, namesAt table pre r x = some e →
      (e.direct? = none ↔ ¬ (namesAt table pre r).Imported x ∧
        (namesAt table pre r).address? x = none) := by
    intro e he
    simp only [NameTable.Imported, NameTable.linkage?, NameTable.address?, he, Option.bind_some,
      Entry.direct?]
    split <;> simp_all
  constructor
  · rintro ⟨⟨q, hq, hmet⟩, himp, hname⟩
    obtain ⟨e, he⟩ := Option.isSome_iff_exists.1 (isSome_namesAt.2 (.inr ⟨q, hq, by tauto⟩) :
      (namesAt table pre r x).isSome = true)
    refine ⟨e, he, (hdirect e he).2 ⟨fun hi => ?_, ?_⟩⟩
    · obtain ⟨q', hq', hx⟩ := imported_namesAt.1 hi
      exact himp q' hq' hx
    · rw [address?_namesAt h himp]
      exact firstAddress_eq_none_iff.2 hname
  · rintro ⟨e, he, hnone⟩
    obtain ⟨hi, haddr⟩ := (hdirect e he).1 hnone
    have himp : ∀ q ∈ pre, ¬ q.line.Imports x := fun q hq hx => hi (imported_namesAt.2 ⟨q, hq, hx⟩)
    rw [address?_namesAt h himp] at haddr
    have hname := firstAddress_eq_none_iff.1 haddr
    refine ⟨?_, himp, hname⟩
    rcases isSome_namesAt.1 (by rw [he]; rfl) with hx | ⟨q, hq, hx | hx | hx | hx⟩
    · exact absurd hx (hname r (by simp))
    · exact absurd hx (hname q (List.mem_append_left _ hq))
    · exact ⟨q, hq, .inl hx⟩
    · exact absurd hx (himp q hq)
    · exact ⟨q, hq, .inr hx⟩

/-! ## What a reference is read as -/

/-- What a direct name stands for in a section with the given rows: zero if it is imported, else the
address of the row that carries it. -/
def directValue? (rs : List Row) (x : String) : Option Int :=
  if ∃ q ∈ rs, q.line.Imports x then some 0 else firstAddress rs x

/-- A row between others, in one pass. -/
def contextAt (table : OpTable) (pre : List Row) (r : Row) (size : Int) (post : List Row) :
    RowContext :=
  ⟨NameTable.afterRows .onePass table (fun _ => none) pre, (r, size), post⟩

theorem entryFor?_contextAt (hexp : ¬ r.line.Exports x) :
    (contextAt table pre r size post).entryFor? table x = (namesAt table pre r x).or
      (firstEntry table x ((contextAt table pre r size post).after table) post) := if_neg hexp

theorem entryFor?_contextAt_of_exports (hexp : r.line.Exports x) :
    (contextAt table pre r size post).entryFor? table x =
      firstEntry table x ((contextAt table pre r size post).after table) post := if_pos hexp

theorem of_entryFor?_later (himp : ¬ r.line.Imports x) (hnone : namesAt table pre r x = none)
    {e : Entry (Option Int)}
    (he : firstEntry table x ((contextAt table pre r size post).after table) post = some e) :
    (∀ q ∈ pre ++ [r], q.line.name? ≠ some x) ∧ (∀ q ∈ pre, ¬ q.line.Imports x) ∧
      ∃ mid q rest, post = mid ++ q :: rest ∧ (∀ q' ∈ mid, q'.line.name? ≠ some x) ∧
      q.line.name? = some x ∧
        e.address = some q.address ∧
        (e.linkage = some .imported ↔ ∃ q' ∈ mid, q'.line.Imports x) := by
  have hmet :
      ¬ (r.line.name? = some x ∨ ∃ q ∈ pre, q.line.name? = some x ∨ q.line.Exports x ∨
        q.line.Imports x ∨
      q.line.RefersTo table x) := by
    rw [← isSome_namesAt, hnone]
    simp
  simp only [not_or, not_exists, not_and] at hmet
  obtain ⟨hr, hpre⟩ := hmet
  obtain ⟨mid, q, rest, rfl, hmid, hq, rfl⟩ := exists_of_firstEntry he
  refine ⟨?_, fun q hq => (hpre q hq).2.2.1, mid, q, rest, rfl, hmid, hq, rfl, ?_⟩
  · intro q hq
    rcases List.mem_append.1 hq with hq | hq
    · exact (hpre q hq).1
    · rw [List.mem_singleton.1 hq]
      exact hr
  · have hafter : ¬ ((contextAt table pre r size (mid ++ q :: rest)).after table).Imported x := by
      rw [RowContext.after, NameTable.imported_after]
      rintro (h | h)
      · obtain ⟨q', hq', hx⟩ := NameTable.imported_afterRows_empty.1 h
        exact (hpre q' hq').2.2.1 hx
      · exact himp h
    exact NameTable.imported_afterRows.trans (or_iff_right hafter)

/-- A name that a row gives an address before any import: what it stands for in the end is another
number only if it is withdrawn. -/
theorem directValue?_of_labelled {mid back : List Row}
    (h : NameTable.TakesAll table (pre ++ r :: (mid ++ back)))
    (hno : ∀ q ∈ pre ++ r :: mid, ¬ q.line.Imports x) {q : Row} (hq : q ∈ pre ++ r :: mid)
    (hx : q.line.name? = some x) :
    firstAddress (pre ++ r :: (mid ++ back)) x = some q.address ∧
      (Withdrawn pre r (mid ++ back) x → q.address ≠ 0 ∧
        directValue? (pre ++ r :: (mid ++ back)) x = some 0) ∧
      (¬ Withdrawn pre r (mid ++ back) x →
        directValue? (pre ++ r :: (mid ++ back)) x = some q.address) := by
  have hrows : pre ++ r :: (mid ++ back) = (pre ++ r :: mid) ++ back := by simp
  have hfirst : firstAddress (pre ++ r :: (mid ++ back)) x = some q.address := by
    rw [hrows, firstAddress_append, NameTable.TakesAll.firstAddress_eq (hrows ▸ h).left hno hq hx,
      Option.some_or]
  refine ⟨hfirst, ?_, fun hw => ?_⟩
  · rintro ⟨mid', e, rest, hpost, he, q', hq', hx', hne⟩
    have hcut : pre ++ r :: (mid ++ back) = (pre ++ r :: mid') ++ e :: rest := by rw [hpost]; simp
    have hno' : ∀ q ∈ pre ++ r :: mid', ¬ q.line.Imports x :=
      fun q hq hi => (hcut ▸ h).not_imports hq hi he
    have hsame : firstAddress (pre ++ r :: (mid ++ back)) x = some q'.address := by
      rw [hcut, firstAddress_append,
        NameTable.TakesAll.firstAddress_eq (hcut ▸ h).left hno' hq' hx', Option.some_or]
    rw [hfirst, Option.some.injEq] at hsame
    exact ⟨hsame ▸ hne, if_pos ⟨e, by simp [hcut], he⟩⟩
  · by_cases hany : ∃ e ∈ pre ++ r :: (mid ++ back), e.line.Imports x
    · obtain ⟨e, he, hi⟩ := hany
      have heb : e ∈ back := by
        rw [hrows] at he
        exact (List.mem_append.1 he).resolve_left fun hf => hno e hf hi
      obtain ⟨m, rest, rfl⟩ := List.append_of_mem heb
      have hzero : q.address = 0 := by
        by_contra hne
        exact hw ⟨mid ++ m, e, rest, by simp, hi, q, by simp at hq ⊢; tauto, hx, hne⟩
      rw [hzero]
      exact if_pos ⟨e, he, hi⟩
    · rw [directValue?, if_neg hany, hfirst]

theorem direct_atHand (h : NameTable.TakesAll table (pre ++ r :: post)) (himp : ¬ r.line.Imports x)
    {e : Entry (Option Int)} (he : namesAt table pre r x = some e) {v : Int}
    (hv : e.direct? = some v) :
    (Withdrawn pre r post x → v ≠ 0 ∧ directValue? (pre ++ r :: post) x = some 0) ∧
      (¬ Withdrawn pre r post x → directValue? (pre ++ r :: post) x = some v) := by
  have hhead : NameTable.TakesAll table ((pre ++ [r]) ++ post) := by simpa using h
  rw [Entry.direct?] at hv
  split at hv
  · next hl =>
    obtain ⟨q, hq, hx⟩ := (linkage_of_namesAt he).1 hl
    obtain rfl := Option.some.inj hv
    refine ⟨?_, fun _ => if_pos ⟨q, List.mem_append_left _ hq, hx⟩⟩
    rintro ⟨mid, e', rest, rfl, he', -⟩
    have hcut : pre ++ r :: (mid ++ e' :: rest) = (pre ++ r :: mid) ++ e' :: rest := by simp
    exact absurd he' ((hcut ▸ h).not_imports (List.mem_append_left _ hq) hx)
  · next hl =>
    have hpre : ∀ q ∈ pre, ¬ q.line.Imports x :=
      fun q hq hx => hl ((linkage_of_namesAt he).2 ⟨q, hq, hx⟩)
    have hno : ∀ q ∈ pre ++ [r], ¬ q.line.Imports x := by
      intro q hq
      rcases List.mem_append.1 hq with hq | hq
      · exact hpre q hq
      · rwa [List.mem_singleton.1 hq]
    rw [address_of_namesAt hhead.left he hpre] at hv
    obtain ⟨q, hq, hx, rfl⟩ := exists_of_firstAddress hv
    exact (directValue?_of_labelled h hno hq hx).2

theorem direct_later (h : NameTable.TakesAll table (pre ++ r :: post)) (himp : ¬ r.line.Imports x)
    (hnone : namesAt table pre r x = none) {e : Entry (Option Int)}
    (he : firstEntry table x ((contextAt table pre r size post).after table) post = some e) :
    ∃ v, e.direct? = some v ∧
      (Withdrawn pre r post x → v ≠ 0 ∧ directValue? (pre ++ r :: post) x = some 0) ∧
      (¬ Withdrawn pre r post x → directValue? (pre ++ r :: post) x = some v) := by
  obtain ⟨hname, hpre, mid, q, rest, rfl, hmid, hq, haddr, hlinkage⟩ :=
    of_entryFor?_later himp hnone he
  have hcut : pre ++ r :: (mid ++ q :: rest) = (pre ++ r :: mid) ++ q :: rest := by simp
  by_cases hl : e.linkage = some .imported
  · obtain ⟨i, hi, hix⟩ := hlinkage.1 hl
    refine ⟨0, if_pos hl, ?_, fun _ => if_pos ⟨i, by simp [hi], hix⟩⟩
    rintro ⟨mid', e', rest', hpost, he', q', hq', hx', -⟩
    rcases List.append_eq_append_iff.1 hpost with ⟨c, rfl, -⟩ | ⟨c, rfl, -⟩
    · have hcut' : pre ++ r :: (mid ++ q :: rest) = (pre ++ r :: (mid ++ c)) ++ e' :: rest' := by
        rw [hpost]; simp
      exact absurd he' ((hcut' ▸ h).not_imports (by simp [hi]) hix)
    · rw [List.append_cons] at hq'
      rcases List.mem_append.1 hq' with hq' | hq'
      · exact absurd hx' (hname q' hq')
      · exact absurd hx' (hmid q' (List.mem_append_left _ hq'))
  · refine ⟨q.address, by rw [Entry.direct?, if_neg hl, haddr], ?_⟩
    have hqno : ¬ q.line.Imports x := fun hx => by
      have hlabel := ((hcut ▸ h) _ q rest rfl).linkage x (.inr hx)
      rw [hlabel.1] at hq
      cases hq
    have hno : ∀ q' ∈ pre ++ r :: (mid ++ [q]), ¬ q'.line.Imports x := by
      intro q' hq' hx
      simp only [List.mem_append, List.mem_cons, List.not_mem_nil, or_false] at hq'
      rcases hq' with hq' | rfl | hq' | rfl
      · exact hpre q' hq' hx
      · exact himp hx
      · exact hl (hlinkage.2 ⟨q', hq', hx⟩)
      · exact hqno hx
    rw [List.append_cons mid] at h ⊢
    exact (directValue?_of_labelled h hno (by simp) hq).2

/-- A direct name that is not overlooked is read as what it stands for, unless it is withdrawn. -/
theorem direct_contextAt (h : NameTable.TakesAll table (pre ++ r :: post))
    (hexp : ¬ r.line.Exports x) (himp : ¬ r.line.Imports x)
    (hread : (contextAt table pre r size post).entryFor? table x ≠ none)
    (hover : ¬ Overlooked table pre r x) :
    ∃ v, ((contextAt table pre r size post).entryFor? table x).bind Entry.direct? = some v ∧
      (Withdrawn pre r post x → v ≠ 0 ∧ directValue? (pre ++ r :: post) x = some 0) ∧
      (¬ Withdrawn pre r post x → directValue? (pre ++ r :: post) x = some v) := by
  have hhead : NameTable.TakesAll table ((pre ++ [r]) ++ post) := by simpa using h
  rw [entryFor?_contextAt hexp] at hread ⊢
  cases hnames : namesAt table pre r x with
  | some e =>
    cases hv : e.direct? with
    | none => exact absurd ((overlooked_iff hhead.left).2 ⟨e, hnames, hv⟩) hover
    | some v => exact ⟨v, hv, direct_atHand h himp hnames hv⟩
  | none =>
    rw [hnames, Option.none_or] at hread
    obtain ⟨e, he⟩ := Option.ne_none_iff_exists'.1 hread
    rw [Option.none_or, he, Option.bind_some]
    exact direct_later h himp hnames he

theorem direct_of_overlooked (h : NameTable.TakesAll table (pre ++ [r])) (hexp : ¬ r.line.Exports x)
    (hover : Overlooked table pre r x) (size : Int) (post : List Row) :
    ∃ e, (contextAt table pre r size post).entryFor? table x = some e ∧ e.direct? = none := by
  obtain ⟨e, he, hnone⟩ := (overlooked_iff h).1 hover
  exact ⟨e, by rw [entryFor?_contextAt hexp, he, Option.some_or], hnone⟩

/-- A relative name that is not overlooked is read as the distance to the first row that carries
it. -/
theorem relative_contextAt (h : NameTable.TakesAll table (pre ++ r :: post))
    (hexp : ¬ r.line.Exports x) (himp : ¬ r.line.Imports x) {e : Entry (Option Int)}
    (he : (contextAt table pre r size post).entryFor? table x = some e)
    (hl : e.linkage ≠ some .imported) (hover : ¬ Overlooked table pre r x) (next : Int) :
    ∃ b, firstAddress (pre ++ r :: post) x = some b ∧
      e.relative? next = some (displacement b next) := by
  have hhead : NameTable.TakesAll table ((pre ++ [r]) ++ post) := by simpa using h
  have hrows :
      firstAddress (pre ++ r :: post) x = (firstAddress (pre ++ [r]) x).or
        (firstAddress post x) := by
    rw [List.append_cons, firstAddress_append]
  rw [entryFor?_contextAt hexp] at he
  rw [Entry.relative?, if_neg hl, hrows]
  cases hnames : namesAt table pre r x with
  | some e' =>
    rw [hnames, Option.some_or] at he
    obtain rfl := Option.some.inj he
    have hpre : ∀ q ∈ pre, ¬ q.line.Imports x :=
      fun q hq hx => hl ((linkage_of_namesAt hnames).2 ⟨q, hq, hx⟩)
    rw [← address_of_namesAt hhead.left hnames hpre]
    cases haddr : e'.address with
    | none =>
      exact absurd
        ((overlooked_iff hhead.left).2 ⟨e', hnames, by rw [Entry.direct?, if_neg hl, haddr]⟩) hover
    | some b => exact ⟨b, rfl, rfl⟩
  | none =>
    rw [hnames, Option.none_or] at he
    obtain ⟨hname, -, mid, q, rest, rfl, hmid, hq, haddr, -⟩ := of_entryFor?_later himp hnames he
    refine ⟨q.address, ?_, by rw [haddr]; rfl⟩
    rw [firstAddress_eq_none_iff.2 hname, Option.none_or, firstAddress_append,
      firstAddress_eq_none_iff.2 hmid, Option.none_or, firstAddress_cons_self hq]

end

/-! ## The rows of a section -/

theorem contexts_split {table : OpTable} {N : NameTable} {ps : List (Row × Int)}
    {rest pre post : List Row} {r : Row} (hcut : ps.map (·.1) ++ rest = pre ++ r :: post)
    (hlen : pre.length < ps.length) :
    ∃ size, (r, size) ∈ ps ∧ (contexts table N ps rest)[pre.length]? =
      some ⟨NameTable.afterRows .onePass table N pre, (r, size), post⟩ := by
  induction pre generalizing N ps with
  | nil =>
    cases ps with
    | nil => simp at hlen
    | cons p ps =>
      obtain ⟨rfl, rfl⟩ := List.cons.inj hcut
      exact ⟨p.2, List.mem_cons_self, rfl⟩
  | cons q pre ih =>
    cases ps with
    | nil => simp at hlen
    | cons p ps =>
      obtain ⟨rfl, htail⟩ := List.cons.inj hcut
      obtain ⟨size, hmem, hget⟩ :=
        ih (N := N.after .onePass table p.1.address p.1.line) htail (by simpa using hlen)
      exact ⟨size,
        List.mem_cons_of_mem _
          hmem, by rw [List.length_cons, contexts, List.getElem?_cons_succ, hget]; rfl⟩

namespace Sectioned

variable {table : OpTable} {use : NameUse} {sec : ControlSection} {pre post : List Row} {r : Row}
  {x : String}

theorem contextsOf_split (hcut : sec.nameRows table = pre ++ r :: post)
    (hr : r.line.mnemonic ≠ "END") :
    (contextsOf table sec)[pre.length]? =
      some (contextAt table pre r (r.line.extent .sectioned table) post) := by
  have hend : r ∉ sec.endRows table := by
    unfold ControlSection.endRows
    split
    · next h =>
      intro hmem
      rw [List.mem_singleton.1 hmem] at hr
      exact hr h
    · simp
  have hlen : pre.length < (sec.rows table).length := by
    by_contra hle
    refine hend ?_
    rcases List.append_eq_append_iff.1 (ControlSection.nameRows.eq_1 table sec ▸ hcut) with ⟨c, -,
      hc⟩ | ⟨c, hc, hrest⟩
    · rw [hc]
      simp
    · cases c with
      | nil => rw [List.nil_append] at hrest; rw [← hrest]; simp
      | cons q c =>
        refine absurd ?_ hle
        rw [← List.length_map (f := fun p : Row × Int => p.1), hc]
        simp
  obtain ⟨size, hmem, hget⟩ := contexts_split (N := fun _ => none) hcut hlen
  rw [contextsOf, hget, contextAt, show size = _ from snd_of_mem_placed _ _ _ hmem]

theorem SectionFits.mem_contexts (hcut : sec.nameRows table = pre ++ r :: post)
    (hr : r.line.mnemonic ≠ "END") :
    contextAt table pre r (r.line.extent .sectioned table) post ∈ contextsOf table sec :=
  List.mem_of_getElem? (contextsOf_split hcut hr)

theorem mnemonic_ne_end (h : r.line.Exports x ∨ r.line.RefersTo table x) :
    r.line.mnemonic ≠ "END" := by
  rcases h with h | h
  · rw [h.1]
    decide
  · intro hend
    obtain ⟨op, hop⟩ := Option.isSome_iff_exists.1 h.1
    rw [Line.operation?_eq_some_iff, (Statement.ofMnemonic_eq_finish_iff _ _ _).2 hend] at hop
    cases hop

theorem SectionFits.entryFor?_ne_none (h : SectionFits table use sec)
    (hcut : sec.nameRows table = pre ++ r :: post)
    (hx : r.line.Exports x ∨ r.line.RefersTo table x) :
    (contextAt table pre r (r.line.extent .sectioned table) post).entryFor? table x ≠ none :=
      fun hnone =>
  h.settled _ (SectionFits.mem_contexts hcut (mnemonic_ne_end hx)) x ⟨hx, hnone⟩

/-- A name that has been met in a section is carried by a row, or was imported. -/
theorem SectionFits.exists_label (h : SectionFits table use sec) {front back : List Row}
    (hcut : sec.nameRows table = front ++ back) (himp : ∀ q ∈ front, ¬ q.line.Imports x)
    (hmet : (NameTable.afterRows .onePass table (fun _ => none) front x).isSome = true) :
    ∃ q ∈ sec.nameRows table, q.line.name? = some x := by
  induction front using List.reverseRecOn generalizing back with
  | nil => cases hmet
  | append_singleton pre q ih =>
    have hcut' : sec.nameRows table = pre ++ q :: back := by rw [hcut, List.append_assoc]; rfl
    have hpre : ∀ q ∈ pre, ¬ q.line.Imports x := fun q hq => himp q (List.mem_append_left _ hq)
    by_cases hbefore : (NameTable.afterRows .onePass table (fun _ => none) pre x).isSome = true
    · exact ih hcut' hpre hbefore
    · by_cases hname : q.line.name? = some x
      · exact ⟨q, by simp [hcut'], hname⟩
      · have hnone : namesAt table pre q x = none := by
          rw [namesAt, NameTable.label_of_ne hname]
          simpa using hbefore
        have hx : q.line.Exports x ∨ q.line.RefersTo table x := by
          rw [NameTable.afterRows_append, NameTable.afterRows, NameTable.afterRows,
            NameTable.isSome_after] at hmet
          rcases hmet with hmet | hmet | hexp | hi | ⟨-, href⟩
          · exact absurd hmet hbefore
          · exact absurd hmet hname
          · exact .inl hexp
          · exact absurd hi (himp q (by simp))
          · exact .inr href
        have hlater : firstEntry table x
            ((contextAt table pre q (q.line.extent .sectioned table) back).after table) back ≠
              none := by
          have hne := h.entryFor?_ne_none hcut' hx
          by_cases hexp : q.line.Exports x
          · rwa [entryFor?_contextAt_of_exports hexp] at hne
          · rwa [entryFor?_contextAt hexp, hnone, Option.none_or] at hne
        by_contra hall
        refine hlater (firstEntry_eq_none_iff.2 fun q' hq' hx' => hall ⟨q', ?_, hx'⟩)
        rw [hcut]
        exact List.mem_append_right _ hq'

/-! ## The digits of references -/

theorem recordsOf_split (hcut : sec.nameRows table = pre ++ r :: post)
    (hr : r.line.mnemonic ≠ "END") :
    (recordsOf table sec)[pre.length + 1]? =
      some ((contextAt table pre r (r.line.extent .sectioned table) post).record table) := by
  have hmap : ((contextsOf table sec).map (·.record table))[pre.length]? =
      some ((contextAt table pre r (r.line.extent .sectioned table) post).record table) := by
    rw [List.getElem?_map, contextsOf_split hcut hr]
    rfl
  have hlen : pre.length < ((contextsOf table sec).map (·.record table)).length :=
    (List.getElem?_eq_some_iff.1 hmap).1
  rw [recordsOf, List.getElem?_cons_succ, List.append_assoc, List.getElem?_append_left hlen, hmap]

end Sectioned

/-- The digits that a reference before the command at `next` is to carry in a section with the given
rows. -/
def referenceDigits? (rs : List Row) (next : Int) : Operand → Option String
  | .direct x => (directValue? rs x).map Text.address
  | .relative x => (firstAddress rs x).map fun b => Text.hex .upper 4 (displacement b next)
  | _ => none

namespace Sectioned

variable {table : OpTable} {use : NameUse} {sec : ControlSection} {pre post : List Row} {r : Row}
  {x : String}

theorem record_command {op : Operation} (hop : r.line.operation? table = some op) :
    (contextAt table pre r (r.line.extent .sectioned table) post).record table =
      .code r.address op.size (codeByte op.opcode r.line.operands)
        ((operandDigits?
          ((contextAt table pre r (r.line.extent .sectioned table) post).reading table) op.size
            r.line.operands).getD "") := by
  have hst := Line.operation?_eq_some_iff.1 hop
  have hext := extent_of_command hst
  have hrow : (contextAt table pre r (r.line.extent .sectioned table) post).row = (r, op.size) := by
    rw [← hext]; rfl
  simp only [RowContext.record, linkedRecord, linkedField, recordOf, hrow, hst]

theorem SectionFits.exists_of_overlooked (h : SectionFits table use sec)
    (hcut : sec.nameRows table = pre ++ r :: post) (hover : Overlooked table pre r x) :
    ∃ b, firstAddress (sec.nameRows table) x = some b := by
  obtain ⟨⟨q, hq, hmet⟩, himp, -⟩ := hover
  have hsome : (NameTable.afterRows .onePass table (fun _ => none) pre x).isSome = true :=
    NameTable.isSome_afterRows.2
      (.inr ⟨q, hq, hmet.elim (fun h => .inr (.inl h)) fun h => .inr (.inr (.inr ⟨rfl, h⟩))⟩)
  obtain ⟨q', hq', hx'⟩ := h.exists_label hcut himp hsome
  cases hfirst : firstAddress (sec.nameRows table) x with
  | none => exact absurd hx' (firstAddress_eq_none_iff.1 hfirst q' hq')
  | some b => exact ⟨b, rfl⟩

theorem SectionFits.direct_field (h : SectionFits table use sec)
    (hcut : sec.nameRows table = pre ++ r :: post) {size : Int} (hexp : ¬ r.line.Exports x)
    (himp : ¬ r.line.Imports x) (hread : (contextAt table pre r size post).entryFor? table x ≠ none)
    {field : String}
    (hfield : field =
      ((((contextAt table pre r size post).entryFor? table x).bind Entry.direct?).map
        Text.address).getD "") :
    ∃ v, directValue? (sec.nameRows table) x = some v ∧
      (field = Text.address v ↔ ¬ Overlooked table pre r x ∧ ¬ Withdrawn pre r post x) ∧
      (Overlooked table pre r x → field = "") := by
  have htaken : NameTable.TakesAll table (pre ++ r :: post) := hcut ▸ h.taken
  have hhead : NameTable.TakesAll table ((pre ++ [r]) ++ post) := by simpa using htaken
  by_cases hover : Overlooked table pre r x
  · obtain ⟨e, he, hnone⟩ := direct_of_overlooked hhead.left hexp hover size post
    obtain ⟨b, hb⟩ := h.exists_of_overlooked hcut hover
    obtain ⟨v, hv⟩ : ∃ v, directValue? (sec.nameRows table) x = some v := by
      unfold directValue?
      split
      · exact ⟨0, rfl⟩
      · exact ⟨b, hb⟩
    rw [he, Option.bind_some, hnone] at hfield
    refine ⟨v, hv,
      ⟨fun hne => absurd (hne.symm.trans hfield) (Text.hex_ne_empty _ _ _),
        fun hno => absurd hover hno.1⟩, fun _ => hfield⟩
  · obtain ⟨v, hv, hwithdrawn, hkept⟩ := direct_contextAt htaken hexp himp hread hover
    rw [hv, Option.map_some, Option.getD_some] at hfield
    rw [hcut]
    by_cases hw : Withdrawn pre r post x
    · obtain ⟨hne, hzero⟩ := hwithdrawn hw
      exact ⟨0, hzero,
        ⟨fun heq => absurd (Text.eq_zero_of_address (hfield.symm.trans heq)) hne,
          fun hno => absurd hw hno.2⟩, fun ho => absurd ho hover⟩
    · exact ⟨v, hkept hw, ⟨fun _ => ⟨hover, hw⟩, fun _ => hfield⟩, fun ho => absurd ho hover⟩

theorem SectionFits.relative_field (h : SectionFits table use sec)
    (hcut : sec.nameRows table = pre ++ r :: post) {size : Int} (hexp : ¬ r.line.Exports x)
    (himp : ¬ r.line.Imports x) (hread : (contextAt table pre r size post).entryFor? table x ≠ none)
    (hlinkage : ∀ e, (contextAt table pre r size post).entryFor? table x = some e →
      e.linkage ≠ some .imported) {next : Int}
    {field : String} (hfield : field =
      ((((contextAt table pre r size post).entryFor? table x).bind (Entry.relative? next)).map
        (Text.hex .upper 4)).getD "") :
    ∃ b, firstAddress (sec.nameRows table) x = some b ∧
      (field = Text.hex .upper 4 (displacement b next) ↔ ¬ Overlooked table pre r x) ∧
      (Overlooked table pre r x → field = "") := by
  have htaken : NameTable.TakesAll table (pre ++ r :: post) := hcut ▸ h.taken
  have hhead : NameTable.TakesAll table ((pre ++ [r]) ++ post) := by simpa using htaken
  by_cases hover : Overlooked table pre r x
  · obtain ⟨e, he, hnone⟩ := direct_of_overlooked hhead.left hexp hover size post
    obtain ⟨b, hb⟩ := h.exists_of_overlooked hcut hover
    have hrelative : e.relative? next = none := by
      rw [Entry.direct?, if_neg (hlinkage e he)] at hnone
      rw [Entry.relative?, if_neg (hlinkage e he), hnone]
      rfl
    rw [he, Option.bind_some, hrelative] at hfield
    exact ⟨b, hb,
      ⟨fun hne => absurd (hne.symm.trans hfield) (Text.hex_ne_empty _ _ _),
        fun hno => absurd hover hno⟩, fun _ => hfield⟩
  · obtain ⟨e, he⟩ := Option.ne_none_iff_exists'.1 hread
    obtain ⟨b, hb, hrelative⟩ := relative_contextAt htaken hexp himp he (hlinkage e he) hover next
    rw [he, Option.bind_some, hrelative] at hfield
    exact ⟨b, by rw [hcut, hb], ⟨fun _ => hover, fun _ => hfield⟩, fun ho => absurd ho hover⟩

/-- A reference of a section carries the digits it is to carry if and only if it is neither
overlooked nor, as a direct name, withdrawn; an overlooked one carries none. -/
theorem SectionFits.reference (ht : table.Sized .sectioned) (h : SectionFits table use sec)
    (hcut : sec.nameRows table = pre ++ r :: post) {op : Operation}
    (hop : r.line.operation? table = some op) {o : Operand} (ho : o ∈ r.line.operands)
    (hx : o.referredName? = some x) :
    ∃ digits field, referenceDigits? (sec.nameRows table) (r.address + op.size) o = some digits ∧
      (recordsOf table sec)[pre.length + 1]? =
        some (.code r.address op.size (codeByte op.opcode r.line.operands) field) ∧
      (field = digits ↔ ¬ Overlooked table pre r x ∧ ¬ (o = .direct x ∧ Withdrawn pre r post x)) ∧
      (Overlooked table pre r x → field = "") := by
  have hst := Line.operation?_eq_some_iff.1 hop
  have hexp : ¬ r.line.Exports x := Line.not_exports (by rw [hst]; nofun) x
  have himp : ¬ r.line.Imports x := Line.not_imports (by rw [hst]; nofun) x
  have hend : r.line.mnemonic ≠ "END" := fun he => by
    rw [(Statement.ofMnemonic_eq_finish_iff _ _ _).2 he] at hst
    cases hst
  have hmem := SectionFits.mem_contexts hcut hend
  have hadm : Admitted op.size r.line.operands := (h.rows _ hmem).fits.admitted ht hst
  rw [recordsOf_split hcut hend, record_command hop]
  rcases hadm.reference ho hx with ⟨hops, hsize⟩ | ⟨hops, hsize⟩
  · obtain rfl : o = .direct x := by simpa [hops] using ho
    have href : r.line.RefersTo table x := ⟨by rw [hop]; rfl, by rw [hops]; rfl⟩
    have hdigits := operandDigits?_direct
      ((contextAt table pre r (r.line.extent .sectioned table) post).reading table) x
    rw [← hsize, ← hops] at hdigits
    rw [hdigits]
    obtain ⟨v, hv, hiff, hempty⟩ :=
      h.direct_field hcut hexp himp (h.entryFor?_ne_none hcut (.inr href)) rfl
    refine ⟨_, _, by rw [referenceDigits?, hv]; rfl, rfl, ?_, hempty⟩
    rw [and_iff_right rfl]
    exact hiff
  · obtain rfl : o = .relative x := by simpa [hops] using ho
    have href : r.line.RefersTo table x := ⟨by rw [hop]; rfl, by rw [hops]; rfl⟩
    have hnext : r.address + r.line.extent .sectioned table = r.address + op.size := by
      rw [extent_of_command hst]
    have hdigits := operandDigits?_relative
      ((contextAt table pre r (r.line.extent .sectioned table) post).reading table) x
    rw [← hsize, ← hops] at hdigits
    rw [hdigits]
    obtain ⟨b, hb, hiff, hempty⟩ :=
      h.relative_field hcut hexp himp (h.entryFor?_ne_none hcut (.inr href))
        (h.relatives _ hmem x hops) rfl
    refine ⟨_, _, by rw [referenceDigits?, hb]; rfl, rfl, ?_, hempty⟩
    rw [← hnext]
    refine hiff.trans ?_
    simp

end Sectioned

/-- In a sectioned program that one pass accepts, the record of a command with a name carries the
digits of the name (the address that the name has in the section, zero if the section imports it, or
the distance to it) if and only if the reference is neither overlooked nor, as a direct name,
withdrawn.  The record of an overlooked reference carries no digits. -/
theorem references_filled_iff (table : OpTable) (ht : table.Sized .sectioned) (i : Int)
    (program : List Line) (v : Snapshot)
    (hfault : (traceProgram .sectioned table (.ofIndex i) program).fault = none)
    (hlast : (traceProgram .sectioned table (.ofIndex i) program).snapshots.getLast? = some v)
    (hfound : v.found = []) :
    ∃ blocks : List (List ObjectRecord), v.records = some blocks.flatten ∧
      List.Forall₂ (fun (sec : ControlSection) block =>
        ∀ pre r post op o x, sec.nameRows table = pre ++ r :: post →
          r.line.operation? table = some op →
          o ∈ r.line.operands → o.referredName? = some x →
          ∃ digits field, referenceDigits? (sec.nameRows table) (r.address + op.size) o =
            some digits ∧
            block[pre.length + 1]? =
              some (.code r.address op.size (codeByte op.opcode r.line.operands) field) ∧
            (field = digits ↔ ¬ Overlooked table pre r x ∧
              ¬ (o = .direct x ∧ Withdrawn pre r post x)) ∧
            (Overlooked table pre r x → field = ""))
        (controlSections program) blocks := by
  obtain ⟨rs, hrs⟩ := Sectioned.records_of_found hfault hlast hfound
  obtain ⟨rfl, hfits, -⟩ := Sectioned.of_trace ht hfault hlast hrs
  refine ⟨(controlSections program).map (Sectioned.recordsOf table), ?_, ?_⟩
  · rw [hrs, List.flatMap_def]
  · rw [List.forall₂_map_right_iff, List.forall₂_same]
    intro sec hsec pre r post op o x hcut hop ho hx
    exact (hfits sec hsec).reference ht hcut hop ho hx

/-- Two jumps to a label at the end. -/
def twoJumps : List Line :=
  [⟨some "P", ⟨"START", []⟩⟩, ⟨none, ⟨"JMP", [.direct "X"]⟩⟩, ⟨none, ⟨"JMP", [.direct "X"]⟩⟩,
    ⟨some "X", ⟨"END", []⟩⟩]

/-- The second jump is overlooked: its record has no digits, although the label stands at address
eight. -/
theorem twoJumps_second_overlooked :
    (OpTable.ofTriples [("JMP", 1, 4)]).Sized .sectioned ∧
      ∃ v block field,
      (traceProgram .sectioned (.ofTriples [("JMP", 1, 4)]) (.ofIndex 2) twoJumps).fault = none ∧
        (traceProgram .sectioned (.ofTriples [("JMP", 1, 4)])
          (.ofIndex 2) twoJumps).snapshots.getLast? = some v ∧
        v.found = [] ∧ v.records = some block ∧ block[2]? = some (.code 4 4 5 field) ∧ field = "" ∧
        field ≠ "000008" := by
  have ht : (OpTable.ofTriples [("JMP", 1, 4)]).Sized .sectioned :=
    OpTable.sized_of_forall (by decide +kernel)
  obtain ⟨v, hfault, hlast, hfound⟩ :
      ∃ v, (traceProgram .sectioned (.ofTriples [("JMP", 1, 4)]) (.ofIndex 2) twoJumps).fault =
        none ∧
        (traceProgram .sectioned (.ofTriples [("JMP", 1, 4)])
          (.ofIndex 2) twoJumps).snapshots.getLast? = some v ∧
        v.found = [] := ⟨_, rfl, rfl, rfl⟩
  obtain ⟨blocks, hrecords, hall⟩ := references_filled_iff _ ht 2 twoJumps v hfault hlast hfound
  have hsections : controlSections twoJumps =
      [⟨⟨some "P", ⟨"START", []⟩⟩, [⟨none, ⟨"JMP", [.direct "X"]⟩⟩, ⟨none, ⟨"JMP", [.direct "X"]⟩⟩],
        ⟨some "X", ⟨"END", []⟩⟩⟩] := rfl
  rw [hsections] at hall
  obtain ⟨block, rest, hblock, hrest, rfl⟩ := List.forall₂_cons_left_iff.1 hall
  cases hrest
  obtain ⟨digits, field, hdigits, hfield, hiff, hempty⟩ :=
    hblock [⟨0, ⟨none, ⟨"JMP", [.direct "X"]⟩⟩, some "P"⟩] ⟨4, ⟨none, ⟨"JMP", [.direct "X"]⟩⟩,
      some "P"⟩ [⟨8, ⟨some "X", ⟨"END", []⟩⟩, some "P"⟩] ⟨1, 4⟩ (.direct "X") "X"
    rfl rfl (List.mem_singleton.2 rfl) rfl
  have hover : field = "" := hempty (by decide +kernel)
  exact ⟨ht, v, block, field, hfault, hlast, hfound, by simpa using hrecords, hfield,
    hover, by rw [hover]; decide⟩

end OnePass

end Assembler
