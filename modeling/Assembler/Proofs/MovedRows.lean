import Assembler.Proofs.BackPatching
import Assembler.Proofs.SectionedAcceptance

/-! # Rows behind an export directive and before it

An export directive marks one name, and the mark does not meddle with what other rows leave
(`NameTable.withExport_after`). So the rows of a section are compared one by one with those of the
section where the directive stands further down. -/

namespace Assembler
set_option autoImplicit false

namespace ObjectRecord

/-- The record stands for an exported name. -/
def isDefinition : ObjectRecord → Bool
  | .definition _ _ => true
  | _ => false

/-- The record stands for a command, for data or for space. -/
def isText : ObjectRecord → Bool
  | .code _ _ _ _ | .data _ _ _ | .space _ _ => true
  | _ => false

/-- The record stands for a section, an imported name, a modification or an end. -/
def isFrame (o : ObjectRecord) : Bool := !o.isDefinition && !o.isText

theorem not_isFrame_of_isText {o : ObjectRecord} (h : o.isText = true) : o.isFrame = false := by
  simp [isFrame, h]

end ObjectRecord

namespace NameTable

/-- The names once one of them is marked as exported. -/
def withExport (N : NameTable) (x : String) : NameTable := fun y =>
  if y = x then some ⟨N.address? x, (N.linkage? x).or (some .exported)⟩ else N y

section

variable {strategy : Strategy} {table : OpTable} {N : NameTable} {a : Int} {e l : Line}
  {x y : String}

theorem withExport_of_ne (h : y ≠ x) : N.withExport x y = N y := if_neg h

theorem withExport_self :
    N.withExport x x = some ⟨N.address? x, (N.linkage? x).or (some .exported)⟩ := if_pos rfl

theorem address?_withExport : (N.withExport x).address? y = N.address? y := by
  unfold address? withExport
  split
  · next h => rw [h]; rfl
  · rfl

theorem linkage?_withExport :
    (N.withExport x).linkage? y = if y = x then (N.linkage? x).or (some .exported)
      else N.linkage? y := by
  unfold linkage? withExport
  split <;> rfl

theorem marked_ne_imported (h : ¬ N.Imported x) :
    (N.linkage? x).or (some .exported) ≠ some .imported := by
  unfold Imported at h
  cases hx : N.linkage? x with
  | none => simp
  | some k => simpa [hx] using h

theorem after_of_exports (hexp : e.Exports x) (hname : e.name? = none) (N : NameTable) (a : Int) :
    N.after strategy table a e = N.withExport x := by
  have hother : ∀ y, e.Exports y ↔ x = y := by
    intro y
    simp [Line.Exports, hexp.1, hexp.2]
  funext y
  unfold after
  rw [label_of_none hname]
  by_cases hy : y = x
  · rw [if_pos ((hother y).2 hy.symm), hy, withExport_self]
  · have href : ¬ e.RefersTo table y := by
      refine Line.not_refersTo (fun op => ?_) y
      rw [(Statement.ofMnemonic_eq_exportName_iff table _).2 hexp.1]
      simp
    rw [if_neg fun h => hy ((hother y).1 h).symm, if_neg hexp.not_imports, if_neg fun h => href h.2,
      withExport_of_ne hy]

theorem label_withExport : (N.withExport x).label a l = (N.label a l).withExport x := by
  funext y
  by_cases hy : y = x
  · rw [hy, withExport_self, address?_label, linkage?_label, label]
    split
    · rw [linkage?_withExport, if_pos rfl]
    · rw [withExport_self]
  · rw [withExport_of_ne hy, label, label, linkage?_withExport, if_neg hy, withExport_of_ne hy]

theorem withExport_after (N : NameTable) (x : String) :
    (N.withExport x).after strategy table a l = (N.after strategy table a l).withExport x := by
  funext y
  unfold after
  rw [label_withExport]
  generalize N.label a l = L
  by_cases hy : y = x
  · subst hy
    by_cases hexp : l.Exports y
    · simp [withExport, address?, linkage?, hexp]
    · by_cases himp : l.Imports y
      · simp [withExport, address?, linkage?, hexp, himp]
      · by_cases href : strategy = .onePass ∧ l.RefersTo table y
        · cases hL : L y <;> simp [withExport, address?, linkage?, hexp, himp, href, hL]
        · simp [withExport, address?, linkage?, hexp, himp, href]
  · rw [withExport_of_ne hy, address?_withExport, linkage?_withExport, if_neg hy,
      withExport_of_ne hy]

theorem afterRows_withExport (rs : List Row) : afterRows strategy table (N.withExport x) rs =
    (afterRows strategy table N rs).withExport x := by
  induction rs generalizing N with
  | nil => rfl
  | cons r rs ih => rw [afterRows, withExport_after, ih, afterRows]

/-! ## Rows that are taken in -/

/-- Each of some rows is taken in after names that are there already. -/
def TakesFrom (table : OpTable) (N : NameTable) (rs : List Row) : Prop :=
  ∀ pre r post, rs = pre ++ r :: post → Takes (afterRows .onePass table N pre) r.line

theorem takesFrom_nil : TakesFrom table N [] := fun pre r post h => by simp at h

theorem takesFrom_cons {r : Row} {rs : List Row} : TakesFrom table N (r :: rs) ↔
    Takes N r.line ∧ TakesFrom table (N.after .onePass table r.address r.line) rs := by
  constructor
  · intro h
    exact ⟨h [] r rs rfl, fun pre q post hcut => h (r :: pre) q post (by rw [hcut]; rfl)⟩
  · intro ⟨hr, hrs⟩ pre q post hcut
    cases pre with
    | nil =>
      obtain ⟨rfl, rfl⟩ := List.cons.inj hcut
      exact hr
    | cons k pre =>
      obtain ⟨rfl, htail⟩ := List.cons.inj hcut
      exact hrs pre q post htail

theorem takesFrom_append {rs rs' : List Row} : TakesFrom table N (rs ++ rs') ↔
    TakesFrom table N rs ∧ TakesFrom table (afterRows .onePass table N rs) rs' := by
  induction rs generalizing N with
  | nil => simp [takesFrom_nil, afterRows]
  | cons r rs ih => rw [List.cons_append, takesFrom_cons, takesFrom_cons, ih, and_assoc, afterRows]

theorem takes_iff_of_exports (hexp : e.Exports x) (hname : e.name? = none) :
    Takes N e ↔ N.linkage? x = none := by
  constructor
  · intro h
    exact (h.linkage x (.inl hexp)).2
  · intro h
    refine ⟨fun y hy => by simp [hname] at hy, fun y hy => ⟨hname, ?_⟩⟩
    cases hy with
    | inl hy =>
      rw [← Option.some.inj (hexp.2.symm.trans hy.2)]
      exact h
    | inr hy => exact absurd hy hexp.not_imports

theorem takes_comm (hexp : e.Exports x) (hname : e.name? = none) :
    Takes N e ∧ Takes (N.withExport x) l ↔ Takes N l ∧ Takes (N.after .onePass table a l) e := by
  rw [takes_iff_of_exports hexp hname, takes_iff_of_exports hexp hname, linkage?_after]
  constructor
  · intro ⟨hx, hl⟩
    have hother : ∀ y, l.Exports y ∨ l.Imports y → y ≠ x ∧ N.linkage? y = none := by
      intro y hy
      have hnone := (hl.linkage y hy).2
      rw [linkage?_withExport] at hnone
      split at hnone
      · simp at hnone
      · next hne => exact ⟨hne, hnone⟩
    refine ⟨⟨fun y hy => ?_, fun y hy => ⟨(hl.linkage y hy).1, (hother y hy).2⟩⟩, ?_⟩
    · rw [← address?_withExport]
      exact hl.label y hy
    · rw [if_neg fun h => (hother x (.inl h)).1 rfl, if_neg fun h => (hother x (.inr h)).1 rfl]
      exact hx
  · intro ⟨hl, hx⟩
    have hnot : ¬ l.Exports x ∧ ¬ l.Imports x := by
      refine ⟨fun h => ?_, fun h => ?_⟩
      · rw [if_pos h] at hx
        simp at hx
      · rw [if_neg fun h' => h'.not_imports h, if_pos h] at hx
        cases hx
    rw [if_neg hnot.1, if_neg hnot.2] at hx
    refine ⟨hx, ⟨fun y hy => ?_, fun y hy => ⟨(hl.linkage y hy).1, ?_⟩⟩⟩
    · rw [address?_withExport]
      exact hl.label y hy
    · rw [linkage?_withExport, if_neg]
      · exact (hl.linkage y hy).2
      · intro h
        rw [h] at hy
        exact hy.elim hnot.1 hnot.2

/-- The rows of a section are taken in with the directive in front of some of them or behind
them. -/
theorem takesFrom_moved (hexp : e.Exports x) (hname : e.name? = none) {r r' : Row} (hr : r.line = e)
    (hr' : r'.line = e) (rs rest : List Row) : TakesFrom table N (r :: (rs ++ rest)) ↔
    TakesFrom table N (rs ++ r' :: rest) := by
  induction rs generalizing N with
  | nil =>
    rw [List.nil_append, List.nil_append, takesFrom_cons, takesFrom_cons, hr, hr',
      after_of_exports hexp hname, after_of_exports hexp hname]
  | cons q rs ih =>
    rw [List.cons_append, List.cons_append, takesFrom_cons, hr, after_of_exports hexp hname,
      takesFrom_cons, withExport_after, takesFrom_cons, ← ih, takesFrom_cons, hr,
      after_of_exports hexp hname, ← and_assoc, ← and_assoc, takes_comm hexp hname]

theorem linkage?_afterRows_ne_none {rs : List Row} (h : N.linkage? x ≠ none) :
    (afterRows strategy table N rs).linkage? x ≠ none := by
  induction rs generalizing N with
  | nil => exact h
  | cons r rs ih =>
    apply ih
    rw [linkage?_after]
    split_ifs
    · simp
    · simp
    · exact h

theorem TakesFrom.not_declares {rs : List Row} (h : TakesFrom table N rs) (hx : N.linkage? x ≠ none)
    {q : Row} (hq : q ∈ rs) :
    ¬ (q.line.Exports x ∨ q.line.Imports x) := by
  intro hdeclares
  obtain ⟨pre, post, rfl⟩ := List.append_of_mem hq
  exact linkage?_afterRows_ne_none hx ((h pre q post rfl).linkage x hdeclares).2

theorem not_declares_of_unlinked {rs : List Row}
    (h : (afterRows .onePass table N rs).linkage? x = none) {q : Row} (hq : q ∈ rs) :
    ¬ (q.line.Exports x ∨ q.line.Imports x) := by
  intro hdeclares
  obtain ⟨pre, post, rfl⟩ := List.append_of_mem hq
  rw [afterRows_append, afterRows] at h
  refine linkage?_afterRows_ne_none ?_ h
  rw [linkage?_after]
  cases hdeclares with
  | inl hexp => simp [hexp]
  | inr himp =>
    have hexp : ¬ q.line.Exports x := fun hexp => hexp.not_imports himp
    simp [himp, hexp]

/-- Where the directive is taken in, no other row declares its name. -/
theorem TakesFrom.not_declares_of_exports {rs rs' : List Row} {r : Row}
    (h : TakesFrom table N (rs ++ r :: rs')) (hr : r.line.Exports x) {q : Row}
    (hq : q ∈ rs ++ rs') : ¬ (q.line.Exports x ∨ q.line.Imports x) := by
  rw [takesFrom_append, takesFrom_cons] at h
  obtain ⟨-, htake, hrest⟩ := h
  cases List.mem_append.1 hq with
  | inl hq => exact not_declares_of_unlinked (htake.linkage x (.inl hr)).2 hq
  | inr hq =>
    refine hrest.not_declares ?_ hq
    rw [linkage?_after, if_pos hr]
    simp

end

end NameTable

/-! ## What is read in rows -/

namespace OnePass

section

variable {table : OpTable} {use : NameUse} {N : NameTable} {e : Line} {x y : String} {r : Row}
  {rs rest rest' : List Row} {c c' : RowContext}

theorem firstEntry_of_exports (hexp : r.line.Exports x) (hname : r.line.name? = none) :
    firstEntry table y N (r :: rs) = firstEntry table y (N.withExport x) rs := by
  rw [firstEntry, if_neg (by simp [hname]), NameTable.after_of_exports hexp hname]

theorem firstEntry_moved (hexp : r.line.Exports x) (hname : r.line.name? = none)
    (hrs : ∀ q ∈ rs, q.line.name? ≠ some x) :
    firstEntry table y (N.withExport x) (rs ++ rest) = firstEntry table y N (rs ++ r :: rest) := by
  induction rs generalizing N with
  | nil => rw [List.nil_append, List.nil_append, firstEntry_of_exports hexp hname]
  | cons q rs ih =>
    have hq : q.line.name? ≠ some x := hrs q List.mem_cons_self
    rw [List.cons_append, List.cons_append, firstEntry, firstEntry]
    split
    · next hy =>
      have hne : y ≠ x := fun h => hq (h ▸ hy)
      rw [NameTable.label_withExport, NameTable.withExport_of_ne hne]
    · rw [NameTable.withExport_after, ih fun k hk => hrs k (List.mem_cons_of_mem _ hk)]

theorem RowContext.entryFor?_followedBy_congr
    (h : ∀ M y, firstEntry table y M rest = firstEntry table y M rest') (c : RowContext) :
    (c.followedBy rest).entryFor? table = (c.followedBy rest').entryFor? table := by
  funext y
  have hlater :
      ∀ rest, firstEntry table y ((c.followedBy rest).after table) (c.followedBy rest).later = _ :=
        fun rest =>
    firstEntry_append (c.after table) c.later rest
  unfold entryFor?
  rw [hlater, hlater, h]
  rfl

theorem linkage_of_mem_contexts {ps : List (Row × Int)} (hc : c ∈ contexts table N ps rest)
    (hN : ¬ N.Imported x) (himp : ∀ q ∈ ps.map (·.1) ++ rest, ¬ q.line.Imports x)
    {en : Entry (Option Int)} (he : c.entryFor? table x = some en) :
    en.linkage ≠ some .imported := by
  obtain ⟨-, pre, post, hcut, heq⟩ := exists_of_mem_contexts hc
  have hnot : ∀ rs : List Row, (∀ q ∈ rs, q ∈ ps.map (·.1) ++ rest) →
      ¬ (NameTable.afterRows .onePass table N rs).Imported x := by
    intro rs hrs himported
    cases NameTable.imported_afterRows.1 himported with
    | inl h => exact hN h
    | inr h =>
      obtain ⟨q, hq, hx⟩ := h
      exact himp q (hrs q hq) hx
  have hpre : ¬ c.before.Imported x := by
    rw [heq]
    exact hnot pre fun q hq => by rw [hcut]; exact List.mem_append_left _ hq
  have hlater : ∀ en', firstEntry table x (c.after table) c.later = some en' →
      en'.linkage ≠ some .imported := by
    intro en' hen
    obtain ⟨mid, q, tail, hmid, -, -, rfl⟩ := exists_of_firstEntry hen
    intro himported
    have hall : (NameTable.afterRows .onePass table N (pre ++ c.row.1 :: mid)).Imported x := by
      rw [NameTable.afterRows_append, NameTable.afterRows]
      have hafter :
          c.after table = (NameTable.afterRows .onePass table N pre).after .onePass table
            c.row.1.address c.row.1.line := by
        rw [RowContext.after, heq]
      rw [← hafter]
      exact himported
    refine hnot _ (fun q' hq' => ?_) hall
    have hpost : post = mid ++ q :: tail := by rw [← hmid, heq]
    rw [hcut, hpost]
    simp only [List.mem_append, List.mem_cons] at hq' ⊢
    tauto
  unfold RowContext.entryFor? at he
  split at he
  · exact hlater en he
  · cases Option.or_eq_some_iff.1 he with
    | inl he =>
      have hlinkage : c.here.linkage? x = en.linkage := by rw [NameTable.linkage?, he]; rfl
      rw [← hlinkage, RowContext.here, NameTable.linkage?_label]
      exact hpre
    | inr he => exact hlater en he.2

/-! ## Rows that settle -/

/-- Nothing is wrong with a row in its place, and it waits for no name. -/
structure RowContext.Settles (table : OpTable) (use : NameUse) (c : RowContext) : Prop where
  row : RowFits table use c.row
  settled : ∀ x, ¬ c.Awaits table x
  relatives : ∀ x, c.line.operands = [.relative x] → ∀ en, c.entryFor? table x = some en →
    en.linkage ≠ some .imported

theorem RowContext.settles_congr (hline : c.line = c'.line)
    (hrow : RowFits table use c.row ↔ RowFits table use c'.row)
    (hnone : ∀ y, c.line.Exports y ∨ c.line.RefersTo table y →
      (c.entryFor? table y = none ↔ c'.entryFor? table y = none))
        (himp : ∀ y, c.line.operands = [.relative y] →
      ((∀ en, c.entryFor? table y = some en → en.linkage ≠ some .imported) ↔
        ∀ en, c'.entryFor? table y = some en → en.linkage ≠ some .imported)) :
    c.Settles table use ↔ c'.Settles table use := by
  have hawaits : ∀ y, c.Awaits table y ↔ c'.Awaits table y := by
    intro y
    unfold Awaits
    rw [← hline]
    exact and_congr_right fun hy => hnone y hy
  constructor
  · intro h
    exact ⟨hrow.1 h.row, fun y hy => h.settled y ((hawaits y).2 hy),
      fun y hy => (himp y (hline ▸ hy)).1 (h.relatives y (hline ▸ hy))⟩
  · intro h
    exact ⟨hrow.2 h.row, fun y hy => h.settled y ((hawaits y).1 hy),
      fun y hy => (himp y hy).2 (h.relatives y (hline ▸ hy))⟩

/-- The directive may be moved over some rows: they do not carry its name, a row behind them does,
and no row declares it. -/
structure Passable (x : String) (rs rest : List Row) : Prop where
  unlabelled : ∀ q ∈ rs, q.line.name? ≠ some x
  carried : ∃ q ∈ rest, q.line.name? = some x
  undeclared : ∀ q ∈ rs ++ rest, ¬ (q.line.Exports x ∨ q.line.Imports x)

theorem Passable.tail (h : Passable x (r :: rs) rest) : Passable x rs rest where
  unlabelled q hq := h.unlabelled q (List.mem_cons_of_mem _ hq)
  carried := h.carried
  undeclared q hq := h.undeclared q (List.mem_cons_of_mem _ hq)

theorem Passable.not_imports (h : Passable x rs rest) (hexp : r.line.Exports x) :
    ∀ q ∈ rs ++ r :: rest, ¬ q.line.Imports x := by
  intro q hq hx
  rw [List.mem_append, List.mem_cons] at hq
  obtain hq | rfl | hq := hq
  · exact h.undeclared q (List.mem_append_left _ hq) (.inr hx)
  · exact hexp.not_imports hx
  · exact h.undeclared q (List.mem_append_right _ hq) (.inr hx)

theorem Passable.unimported (table : OpTable) (h : Passable x (r :: rs) rest)
    (hN : ¬ N.Imported x) :
    ¬ (N.after .onePass table r.address r.line).Imported x := by
  intro himported
  exact (NameTable.imported_after.1 himported).elim hN fun hx => h.undeclared r List.mem_cons_self
    (.inr hx)

/-- A row that the directive is moved over reads other names as before.  Its own name it finds
marked; without the mark it reads what there is, or else what the row behind gives that carries the
name. -/
structure Overtaken (table : OpTable) (x : String) (N : NameTable) (c c' : RowContext) : Prop where
  row : c.row = c'.row
  other : ¬ c.line.Exports x
  unimported : ¬ N.Imported x
  others : ∀ y, y ≠ x → c.entryFor? table y = c'.entryFor? table y
  marked : c.entryFor? table x = some ⟨N.address? x, (N.linkage? x).or (some .exported)⟩
  known : ∀ en, N x = some en → c'.entryFor? table x = some en
  waits : N x = none → ∃ b linkage, c'.entryFor? table x = some ⟨some b, linkage⟩
  linked : ∀ en, c'.entryFor? table x = some en → en.linkage ≠ some .imported

theorem overtaken {p : Row × Int} (hexp : r.line.Exports x) (hname : r.line.name? = none)
    (hN : ¬ N.Imported x) (h : Passable x (p.1 :: rs) rest) :
    Overtaken table x N ⟨N.withExport x, p, rs ++ rest⟩ ⟨N, p, rs ++ r :: rest⟩ := by
  have hline : p.1.line.name? ≠ some x := h.unlabelled _ List.mem_cons_self
  have hnot : ¬ p.1.line.Exports x := fun hx => h.undeclared _ List.mem_cons_self (.inl hx)
  have hfirst :
      ∀ y, firstEntry table y ((N.withExport x).after .onePass table p.1.address p.1.line)
        (rs ++ rest) = firstEntry table y (N.after .onePass table p.1.address p.1.line)
          (rs ++ r :: rest) := by
    intro y
    rw [NameTable.withExport_after, firstEntry_moved hexp hname h.tail.unlabelled]
  have hplain : RowContext.entryFor? table ⟨N, p, rs ++ r :: rest⟩ x =
      (N x).or (firstEntry table x (N.after .onePass table p.1.address p.1.line)
        (rs ++ r :: rest)) := by
    rw [RowContext.entryFor?, if_neg hnot, RowContext.here, NameTable.label_of_ne hline]
    rfl
  refine ⟨rfl, hnot, hN, fun y hy => ?_, ?_, fun en hen => ?_, fun hnone => ?_, fun en hen => ?_⟩
  · unfold RowContext.entryFor? RowContext.here RowContext.after
    simp only [hfirst, NameTable.label_withExport, NameTable.withExport_of_ne hy]
  · rw [RowContext.entryFor?, if_neg hnot, RowContext.here, NameTable.label_of_ne hline]
    simp only [NameTable.withExport_self, Option.some_or]
  · rw [hplain, hen, Option.some_or]
  · rw [hplain, hnone, Option.none_or]
    obtain ⟨q, hq, hx⟩ := h.carried
    have hne :
        firstEntry table x (N.after .onePass table p.1.address p.1.line) (rs ++ r :: rest) ≠
          none := by
      intro hfail
      exact firstEntry_eq_none_iff.1 hfail q (by simp [hq]) hx
    obtain ⟨en, hen⟩ := Option.ne_none_iff_exists'.1 hne
    obtain ⟨mid, q', tail, -, -, -, rfl⟩ := exists_of_firstEntry hen
    exact ⟨_, _, hen⟩
  · have hmem :
        (⟨N, p, rs ++ r :: rest⟩ : RowContext) ∈ contexts table N [p] (rs ++ r :: rest) := by
          simp [contexts]
    exact linkage_of_mem_contexts hmem hN (h.not_imports hexp) hen

theorem Overtaken.settles_iff (h : Overtaken table x N c c') :
    c.Settles table use ↔ c'.Settles table use := by
  have hline : c.line = c'.line := congrArg (·.1.line) h.row
  have hread : ∃ en, c'.entryFor? table x = some en := by
    cases hx : N x with
    | none =>
      obtain ⟨b, linkage, hen⟩ := h.waits hx
      exact ⟨_, hen⟩
    | some en => exact ⟨en, h.known en hx⟩
  refine RowContext.settles_congr hline (by rw [h.row]) (fun y _ => ?_) fun y _ => ?_
  · by_cases hy : y = x
    · obtain ⟨en, hen⟩ := hread
      rw [hy, h.marked, hen]
      simp
    · rw [h.others y hy]
  · by_cases hy : y = x
    · rw [hy, h.marked]
      refine ⟨fun _ => h.linked, fun _ en hen => ?_⟩
      rw [← Option.some.inj hen]
      exact NameTable.marked_ne_imported h.unimported
    · rw [h.others y hy]

theorem settles_withExport_iff {ps : List (Row × Int)} (hexp : r.line.Exports x)
    (hname : r.line.name? = none) (hN : ¬ N.Imported x) (h : Passable x (ps.map (·.1)) rest) :
    (∀ c ∈ contexts table (N.withExport x) ps rest, c.Settles table use) ↔
      ∀ c ∈ contexts table N ps (r :: rest), c.Settles table use := by
  induction ps generalizing N with
  | nil => simp [contexts]
  | cons p ps ih =>
    have hhead : Overtaken table x N _ _ := overtaken hexp hname hN h
    rw [contexts, contexts, List.forall_mem_cons, List.forall_mem_cons, NameTable.withExport_after,
      ih (h.unimported table hN) h.tail, hhead.settles_iff]

/-! ## Records -/

theorem RowContext.record_congr (ht : table.Sized .sectioned)
    (hfit : c.line.LinkFits table use c.row.1.address) (hrow : c.row = c'.row)
    (h : ∀ y, c.line.Exports y ∨ c.line.RefersTo table y →
      (c.reading table).direct y = (c'.reading table).direct y ∧
        (c.reading table).relative y = (c'.reading table).relative y) :
          c.record table = c'.record table := by
  have hfield :
      linkedField table (c.reading table) c.row = linkedField table (c'.reading table) c.row := by
    unfold linkedField
    generalize hst : Statement.ofMnemonic .sectioned table c.row.1.line.mnemonic = st
    cases st with
    | command op =>
      have hop : (c.line.operation? table).isSome = true := by
        rw [Line.operation?_eq_some_iff.2 hst]; rfl
      refine operandDigits?_congr (hfit.admitted ht hst) (fun y hops => ?_) fun y hops => ?_
      · exact (h y (.inr ⟨hop, by rw [hops]; rfl⟩)).1
      · exact (h y (.inr ⟨hop, by rw [hops]; rfl⟩)).2
    | exportName =>
      obtain ⟨-, z, hz⟩ := hfit.operands_of_export hst
      have hadm : Admitted 4 c.line.operands := by rw [hz]; exact .address z
      refine operandDigits?_congr hadm (fun y hops => ?_) fun y hops => ?_
      · exact (h y
          (.inl ⟨(Statement.ofMnemonic_eq_exportName_iff _ _).1 hst,
            onlyName?_eq_some_iff.2 hops⟩)).1
      · simp [hz] at hops
    | _ => rfl
  rw [record, record, ← hrow, hfield]

theorem RowContext.record_of_command {op : Operation} (hop : c.line.operation? table = some op) :
    c.record table = .code c.row.1.address c.row.2 (codeByte op.opcode c.line.operands)
      ((operandDigits? (c.reading table) op.size c.line.operands).getD "") := by
  have hst := Line.operation?_eq_some_iff.1 hop
  simp only [record, linkedRecord, linkedField, recordOf, hst]

theorem isDefinition_record (h : c.row = c'.row) :
    (c.record table).isDefinition = (c'.record table).isDefinition := by
  have hkind :
      ∀ p field field',
        (linkedRecord table p field).isDefinition = (linkedRecord table p field').isDefinition := by
    intro p field field'
    unfold linkedRecord recordOf
    split
    · rfl
    · rfl
    · split <;> rfl
  rw [RowContext.record, RowContext.record, h]
  exact hkind _ _ _

theorem operands_of_refersTo {a : Int} {l : Line} (ht : table.Sized .sectioned)
    (hfit : l.LinkFits table use a) (h : l.RefersTo table x) : ∃ op, l.operation? table = some op ∧
      (l.operands = [.direct x] ∧ op.size = 4 ∨ l.operands = [.relative x] ∧ op.size = 3) := by
  obtain ⟨op, hop⟩ := Option.isSome_iff_exists.1 h.1
  obtain ⟨o, ho, hx⟩ := mem_of_referenceOf h.2
  exact ⟨op, hop, (hfit.admitted ht (Line.operation?_eq_some_iff.1 hop)).reference ho hx⟩

theorem Overtaken.record_eq_iff (ht : table.Sized .sectioned) (h : Overtaken table x N c c')
    (hfit : c.line.LinkFits table use c.row.1.address) :
    c.record table = c'.record table ↔ (c.line.RefersTo table x → N x ≠ none) := by
  have hline : c.line = c'.line := congrArg (·.1.line) h.row
  have hmark := NameTable.marked_ne_imported h.unimported
  constructor
  · intro heq href hnone
    obtain ⟨b, linkage, hen⟩ := h.waits hnone
    have hlinkage : linkage ≠ some .imported := h.linked _ hen
    have haddress : N.address? x = none := by rw [NameTable.address?, hnone]; rfl
    obtain ⟨op, hop, hops⟩ := operands_of_refersTo ht hfit href
    rw [RowContext.record_of_command hop, RowContext.record_of_command (hline ▸ hop), ← hline]
      at heq
    have hfield := (ObjectRecord.code.inj heq).2.2.2
    cases hops with
    | inl hops =>
      rw [hops.1, hops.2, operandDigits?_direct, operandDigits?_direct] at hfield
      simp only [RowContext.reading, Reading.ofEntries, h.marked, hen, Option.bind_some,
        Entry.direct?, if_neg hmark, if_neg hlinkage, haddress, Option.map_none, Option.map_some,
        Option.getD_none, Option.getD_some] at hfield
      exact Text.hex_ne_empty _ _ _ hfield.symm
    | inr hops =>
      rw [hops.1, hops.2, operandDigits?_relative, operandDigits?_relative] at hfield
      simp only [RowContext.reading, Reading.ofEntries, h.marked, hen, Option.bind_some,
        Entry.relative?, if_neg hmark, if_neg hlinkage, haddress, Option.map_none, Option.map_some,
        Option.getD_none, Option.getD_some] at hfield
      exact Text.hex_ne_empty _ _ _ hfield.symm
  · intro href
    refine RowContext.record_congr ht hfit h.row fun y hy => ?_
    have hnext : c.row.1.address + c.row.2 = c'.row.1.address + c'.row.2 := by rw [h.row]
    by_cases hyx : y = x
    · subst hyx
      obtain ⟨en, hen⟩ := Option.ne_none_iff_exists'.1 (href (hy.resolve_left h.other))
      have hread := h.known en hen
      have haddress : N.address? y = en.address := by rw [NameTable.address?, hen]; rfl
      simp only [RowContext.reading, Reading.ofEntries, h.marked, hread, Option.bind_some,
        Entry.direct?, Entry.relative?, if_neg hmark, if_neg (h.linked en hread), haddress, hnext,
        and_self]
    · simp only [RowContext.reading, Reading.ofEntries, h.others y hyx, hnext, and_self]

theorem Overtaken.record_of_not_refersTo (ht : table.Sized .sectioned)
    (h : Overtaken table x N c c') (hfit : c.line.LinkFits table use c.row.1.address) :
    c.record table = c'.record table ∨ (c.record table).isText = true ∧
      (c'.record table).isText = true := by
  by_cases href : c.line.RefersTo table x
  · obtain ⟨op, hop⟩ := Option.isSome_iff_exists.1 href.1
    have hline : c.line = c'.line := congrArg (·.1.line) h.row
    rw [RowContext.record_of_command hop, RowContext.record_of_command (hline ▸ hop)]
    exact .inr ⟨rfl, rfl⟩
  · exact .inl ((h.record_eq_iff ht hfit).2 fun hx => absurd hx href)

theorem filter_frame_withExport {ps : List (Row × Int)} (ht : table.Sized .sectioned)
    (hfits : ∀ p ∈ ps, p.1.line.LinkFits table use p.1.address) (hexp : r.line.Exports x)
    (hname : r.line.name? = none) (hN : ¬ N.Imported x) (h : Passable x (ps.map (·.1)) rest) :
    ((contexts table (N.withExport x) ps rest).map (·.record table)).filter ObjectRecord.isFrame =
      ((contexts table N ps (r :: rest)).map (·.record table)).filter ObjectRecord.isFrame := by
  induction ps generalizing N with
  | nil => rfl
  | cons p ps ih =>
    have hhead : Overtaken table x N _ _ := overtaken hexp hname hN h
    have ih := ih (fun q hq => hfits q (List.mem_cons_of_mem _ hq)) (h.unimported table hN) h.tail
    rw [contexts, contexts, NameTable.withExport_after, List.map_cons, List.map_cons,
      List.filter_cons, List.filter_cons, ih]
    cases hhead.record_of_not_refersTo ht (hfits p List.mem_cons_self) with
    | inl heq => rw [heq]
    | inr htext =>
      rw [ObjectRecord.not_isFrame_of_isText htext.1, ObjectRecord.not_isFrame_of_isText htext.2];
        rfl

theorem filter_records_withExport_iff {ps : List (Row × Int)} (ht : table.Sized .sectioned)
    (hfits : ∀ p ∈ ps, p.1.line.LinkFits table use p.1.address) (hexp : r.line.Exports x)
    (hname : r.line.name? = none) (hN : ¬ N.Imported x) (h : Passable x (ps.map (·.1)) rest) :
    ((contexts table (N.withExport x) ps rest).map (·.record table)).filter (!·.isDefinition) =
        ((contexts table N ps (r :: rest)).map (·.record table)).filter (!·.isDefinition) ↔
      ((∃ p ∈ ps, p.1.line.RefersTo table x) → N x ≠ none) := by
  induction ps generalizing N with
  | nil => simp [contexts]
  | cons p ps ih =>
    have hhead : Overtaken table x N _ _ := overtaken hexp hname hN h
    have hfit := hfits p List.mem_cons_self
    have ih := ih (fun q hq => hfits q (List.mem_cons_of_mem _ hq)) (h.unimported table hN) h.tail
    have hafter : N.after .onePass table p.1.address p.1.line x ≠ none ↔ N x ≠ none ∨
        p.1.line.RefersTo table x := by
      have hname := h.unlabelled p.1 List.mem_cons_self
      have hdeclared := h.undeclared p.1 List.mem_cons_self
      rw [← Option.isSome_iff_ne_none, ← Option.isSome_iff_ne_none, NameTable.isSome_after]
      tauto
    rw [contexts, contexts, NameTable.withExport_after, List.map_cons, List.map_cons,
      List.filter_cons, List.filter_cons, ← isDefinition_record hhead.row, List.exists_mem_cons_iff]
    split
    · have hjoin : ∀ known here later : Prop, (here → known) ∧ (later → known ∨ here) ↔
          (here ∨ later → known) := by tauto
      rw [List.cons.injEq, hhead.record_eq_iff ht hfit, ih, hafter]
      exact hjoin _ _ _
    · next hdefinition =>
      have href : ¬ p.1.line.RefersTo table x := by
        intro href
        obtain ⟨op, hop⟩ := Option.isSome_iff_exists.1 href.1
        exact hdefinition (by rw [RowContext.record_of_command hop]; rfl)
      rw [ih, hafter]
      simp only [href, or_false, false_or]

end

/-! ## The directive in two places -/

section

variable {table : OpTable} {use : NameUse} {N : NameTable} {x : String} {ps qs : List (Row × Int)}
  {p p' : Row × Int} {rest rest' : List Row}

theorem settles_rest_iff (h : ∀ M y, firstEntry table y M rest = firstEntry table y M rest') :
    (∀ c ∈ contexts table N ps rest, c.Settles table use) ↔ ∀ c ∈ contexts table N ps rest',
      c.Settles table use := by
  rw [contexts_followedBy N ps rest, contexts_followedBy N ps rest', List.forall_mem_map,
    List.forall_mem_map]
  refine forall₂_congr fun c _ => RowContext.settles_congr rfl Iff.rfl (fun y _ => ?_) fun y _ => ?_
  · rw [c.entryFor?_followedBy_congr h]
  · rw [c.entryFor?_followedBy_congr h]

theorem records_rest (h : ∀ M y, firstEntry table y M rest = firstEntry table y M rest') :
    (contexts table N ps rest).map (·.record table) = (contexts table N ps rest').map
      (·.record table) := by
  rw [contexts_followedBy N ps rest, contexts_followedBy N ps rest', List.map_map, List.map_map]
  refine List.map_congr_left fun c _ => ?_
  have hread : (c.followedBy rest).reading table = (c.followedBy rest').reading table := by
    rw [RowContext.reading, RowContext.reading, c.entryFor?_followedBy_congr h]
    rfl
  simp only [Function.comp_apply, RowContext.record, hread]
  rfl

theorem settles_directive_iff (hexp : p.1.line.Exports x) (hline : p.1.line = p'.1.line)
    (hfit : RowFits table use p ↔ RowFits table use p') {M : NameTable} {rs : List Row}
    (hrs : ∀ q ∈ rs, q.line.name? ≠ some x) :
    RowContext.Settles table use ⟨N, p, rs ++ rest⟩ ↔
      RowContext.Settles table use ⟨M, p', rest⟩ := by
  have hentry : ∀ (N : NameTable) (p : Row × Int) (later : List Row), p.1.line.Exports x →
      (RowContext.entryFor? table ⟨N, p, later⟩ x = none ↔ ∀ q ∈ later, q.line.name? ≠ some x) := by
    intro N p later hx
    rw [RowContext.entryFor?, if_pos hx]
    exact firstEntry_eq_none_iff
  have hoperands : p.1.line.operands = [.direct x] := onlyName?_eq_some_iff.1 hexp.2
  refine RowContext.settles_congr hline hfit (fun y hy => ?_) fun y hy => ?_
  · have hyx : y = x := by
      cases hy with
      | inl hy => exact Option.some.inj (hy.2.symm.trans hexp.2)
      | inr hy =>
        refine absurd hy (Line.not_refersTo (fun op => ?_) y)
        rw [(Statement.ofMnemonic_eq_exportName_iff table _).2 hexp.1]
        simp
    rw [hyx, hentry N p _ hexp, hentry M p' _ (hline ▸ hexp), List.forall_mem_append]
    exact and_iff_right hrs
  · have hcontra : p.1.line.operands = [.relative y] := hy
    rw [hoperands] at hcontra
    simp at hcontra

theorem mem_contexts_append (p : Row × Int) (us : List (Row × Int)) :
    (⟨NameTable.afterRows .onePass table N (ps.map (·.1)), p, us.map (·.1) ++ rest⟩ : RowContext) ∈
      contexts table N (ps ++ p :: us) rest := by
  rw [contexts_append_rows, contexts]
  simp

theorem isDefinition_directive (hexp : p.1.line.Exports x) {M : NameTable} {later : List Row} :
    (RowContext.record table ⟨M, p, later⟩).isDefinition = true := by
  simp only [RowContext.record, linkedRecord,
    (Statement.ofMnemonic_eq_exportName_iff table _).2 hexp.1]
  rfl

/-! The rows `ps`, then the directive in front of the rows `qs` or behind them, then the rows `us`
and those of the end. -/

variable {us : List (Row × Int)} {ends : List Row}

theorem contexts_before (hexp : p.1.line.Exports x) (hname : p.1.line.name? = none) :
    contexts table N (ps ++ p :: (qs ++ us)) ends =
      contexts table N ps (p.1 :: (qs.map (·.1) ++ (us.map (·.1) ++ ends))) ++
        ⟨NameTable.afterRows .onePass table N (ps.map (·.1)), p,
          qs.map (·.1) ++ (us.map (·.1) ++ ends)⟩ ::
            (contexts table ((NameTable.afterRows .onePass table N (ps.map (·.1))).withExport x) qs
              (us.map (·.1) ++ ends) ++ contexts table
                ((NameTable.afterRows .onePass table N ((ps ++ qs).map (·.1))).withExport x) us
                  ends) := by
  rw [contexts_append_rows, contexts, NameTable.after_of_exports hexp hname, contexts_append_rows,
    NameTable.afterRows_withExport, ← NameTable.afterRows_append]
  simp

theorem contexts_behind (hexp : p.1.line.Exports x) (hname : p.1.line.name? = none) :
    contexts table N (ps ++ (qs ++ p :: us)) ends =
      contexts table N ps (qs.map (·.1) ++ p.1 :: (us.map (·.1) ++ ends)) ++
        (contexts table (NameTable.afterRows .onePass table N (ps.map (·.1))) qs
          (p.1 :: (us.map (·.1) ++ ends)) ++
            ⟨NameTable.afterRows .onePass table N ((ps ++ qs).map (·.1)), p,
              us.map (·.1) ++ ends⟩ :: contexts table
                ((NameTable.afterRows .onePass table N ((ps ++ qs).map (·.1))).withExport x) us
                  ends) := by
  rw [contexts_append_rows, contexts_append_rows, contexts, NameTable.after_of_exports hexp hname,
    ← NameTable.afterRows_append]
  simp

section

variable (hexp : p.1.line.Exports x) (hname : p.1.line.name? = none) (hline : p.1.line = p'.1.line)
  (hN : ¬ (NameTable.afterRows .onePass table N (ps.map (·.1))).Imported x)
  (h : Passable x (qs.map (·.1)) (us.map (·.1) ++ ends))
include hexp hname hline

theorem firstEntry_before (hqs : ∀ q ∈ qs.map (·.1), q.line.name? ≠ some x) (M : NameTable)
    (y : String) :
    firstEntry table y M (p.1 :: (qs.map (·.1) ++ rest)) = firstEntry table y M
      (qs.map (·.1) ++ p'.1 :: rest) :=
  (firstEntry_of_exports hexp hname).trans (firstEntry_moved (hline ▸ hexp) (hline ▸ hname) hqs)

include hN h

/-- All rows settle with the directive in the one place if and only if they do with it in the
other. -/
theorem settles_moved_iff (hfit : RowFits table use p ↔ RowFits table use p') :
    (∀ c ∈ contexts table N (ps ++ p :: (qs ++ us)) ends, c.Settles table use) ↔
      ∀ c ∈ contexts table N (ps ++ (qs ++ p' :: us)) ends, c.Settles table use := by
  rw [contexts_before hexp hname, contexts_behind (hline ▸ hexp) (hline ▸ hname),
    List.forall_mem_append, List.forall_mem_append, List.forall_mem_cons, List.forall_mem_append,
    List.forall_mem_append, List.forall_mem_cons,
    settles_rest_iff (firstEntry_before hexp hname hline h.unlabelled),
    settles_directive_iff hexp hline hfit h.unlabelled,
    settles_withExport_iff (hline ▸ hexp) (hline ▸ hname) hN h]
  exact and_congr_right fun _ => and_left_comm

variable (ht : table.Sized .sectioned) (hfits : ∀ q ∈ qs, q.1.line.LinkFits table use q.1.address)
include ht hfits

theorem frame_moved :
    ((contexts table N (ps ++ p :: (qs ++ us)) ends).map (·.record table)).filter
      ObjectRecord.isFrame =
        ((contexts table N (ps ++ (qs ++ p' :: us)) ends).map (·.record table)).filter
          ObjectRecord.isFrame := by
  have hdropped : ∀ o : ObjectRecord, o.isDefinition = true → ¬ o.isFrame = true := fun o ho => by
    simp [ObjectRecord.isFrame, ho]
  rw [contexts_before hexp hname, contexts_behind (hline ▸ hexp) (hline ▸ hname)]
  simp only [List.map_append, List.map_cons, List.filter_append, List.filter_cons]
  rw [if_neg (hdropped _ (isDefinition_directive hexp)),
    if_neg (hdropped _ (isDefinition_directive (hline ▸ hexp))),
    records_rest (firstEntry_before hexp hname hline h.unlabelled),
    filter_frame_withExport ht hfits (hline ▸ hexp) (hline ▸ hname) hN h]

theorem records_moved_iff :
    ((contexts table N (ps ++ p :: (qs ++ us)) ends).map (·.record table)).filter
        (!·.isDefinition) =
          ((contexts table N (ps ++ (qs ++ p' :: us)) ends).map (·.record table)).filter
            (!·.isDefinition) ↔
      ((∃ q ∈ qs, q.1.line.RefersTo table x) →
        NameTable.afterRows .onePass table N (ps.map (·.1)) x ≠ none) := by
  have hdropped : ∀ o : ObjectRecord, o.isDefinition = true → ¬ (!o.isDefinition) = true :=
    fun o ho => by simp [ho]
  rw [contexts_before hexp hname, contexts_behind (hline ▸ hexp) (hline ▸ hname)]
  simp only [List.map_append, List.map_cons, List.filter_append, List.filter_cons]
  rw [if_neg (hdropped _ (isDefinition_directive hexp)),
    if_neg (hdropped _ (isDefinition_directive (hline ▸ hexp))),
    records_rest (firstEntry_before hexp hname hline h.unlabelled), List.append_cancel_left_eq,
    List.append_cancel_right_eq,
    filter_records_withExport_iff ht hfits (hline ▸ hexp) (hline ▸ hname) hN h]

end

end

end OnePass

end Assembler
