import Mathlib.Data.List.DropRight
import Assembler.Proofs.MovedRows
import Assembler.Proofs.SectionedListing

/-! # Moving an export directive within its section

In one pass an export directive waits for a line behind it that carries the name, and from then on
the name is in the table. So the place of the directive matters: behind the line that carries the
name it is refused, and in front of the first reference to the name it takes the digits of that
reference away (`moved_export_iff`).  Nothing else depends on it. -/

namespace Assembler.OnePass
open Assembler
set_option autoImplicit false

namespace Sectioned

variable {table : OpTable} {use : NameUse} {opener closer e : Line} {front between back : List Line}
  {x : String}

/-! ## Sections with the directive in two places -/

/-- A section with a line in front of some of its lines. -/
def lineBefore (opener closer : Line) (front between back : List Line) (e : Line) :
    ControlSection :=
  ⟨opener, front ++ e :: (between ++ back), closer⟩

/-- The section with the line behind them. -/
def lineBehind (opener closer : Line) (front between back : List Line) (e : Line) :
    ControlSection :=
  ⟨opener, front ++ (between ++ e :: back), closer⟩

/-- The rows of such sections: those in front, the line in its two places, those between and those
behind. -/
structure MovedRows (table : OpTable) (opener closer : Line) (front between back : List Line)
    (e : Line) (ps qs us : List (Row × Int)) (p p' : Row × Int) (ends : List Row) : Prop where
  before : (lineBefore opener closer front between back e).rows table = ps ++ p :: (qs ++ us)
  behind : (lineBehind opener closer front between back e).rows table = ps ++ (qs ++ p' :: us)
  ends_before : (lineBefore opener closer front between back e).endRows table = ends
  ends_behind : (lineBehind opener closer front between back e).endRows table = ends
  front : ps.map (·.1.line) = front
  between : qs.map (·.1.line) = between
  line : p.1.line = e
  line' : p'.1.line = e
  space : p.2 = e.extent .sectioned table
  space' : p'.2 = e.extent .sectioned table

theorem extent_of_exports (table : OpTable) (hexp : e.Exports x) :
    e.extent .sectioned table = 0 := by
  simp only [Line.extent, (Statement.ofMnemonic_eq_exportName_iff table _).2 hexp.1]

theorem length_moved : (lineBehind opener closer front between back e).length table =
    (lineBefore opener closer front between back e).length table := by
  simp only [ControlSection.length, lineBefore, lineBehind, extentOf_append, extentOf]
  omega

theorem exists_movedRows (table : OpTable) (opener closer : Line) (front between back : List Line)
    (hexp : e.Exports x) :
    ∃ ps qs us p p' ends,
      MovedRows table opener closer front between back e ps qs us p p' ends := by
  have hext := extent_of_exports table hexp
  refine ⟨placed .sectioned table opener.label 0 front,
    placed .sectioned table opener.label (extentOf .sectioned table front) between,
    placed .sectioned table opener.label
      (extentOf .sectioned table front + extentOf .sectioned table between) back,
    (⟨extentOf .sectioned table front, e, opener.label⟩, 0),
    (⟨extentOf .sectioned table front + extentOf .sectioned table between, e, opener.label⟩, 0), _,
    { before := ?_
      behind := ?_
      ends_before := rfl
      ends_behind := ?_
      front := placed_map_line _ _ _ _ _
      between := placed_map_line _ _ _ _ _
      line := rfl
      line' := rfl
      space := hext.symm
      space' := hext.symm }⟩
  · rw [ControlSection.rows, lineBefore, placed_append, placed, placed_append, hext]
    simp
  · rw [ControlSection.rows, lineBehind, placed_append, placed_append, placed, hext]
    simp
  · unfold ControlSection.endRows
    rw [length_moved]
    rfl

section

variable {ps qs us : List (Row × Int)} {p p' : Row × Int} {ends : List Row}

theorem MovedRows.nameRows_before
    (h : MovedRows table opener closer front between back e ps qs us p p' ends) :
    (lineBefore opener closer front between back e).nameRows table =
      ps.map (·.1) ++ p.1 :: (qs.map (·.1) ++ (us.map (·.1) ++ ends)) := by
  simp [ControlSection.nameRows, h.before, h.ends_before]

theorem MovedRows.nameRows_behind
    (h : MovedRows table opener closer front between back e ps qs us p p' ends) :
    (lineBehind opener closer front between back e).nameRows table =
      ps.map (·.1) ++ (qs.map (·.1) ++ p'.1 :: (us.map (·.1) ++ ends)) := by
  simp [ControlSection.nameRows, h.behind, h.ends_behind]

theorem sectionFits_iff {sec : ControlSection} : SectionFits table use sec ↔
    NameTable.TakesFrom table (fun _ => none) (sec.nameRows table) ∧ ∀ c ∈ contextsOf table sec,
    c.Settles table use := by
  constructor
  · intro h
    exact ⟨h.taken, fun c hc => ⟨h.rows c hc, h.settled c hc, h.relatives c hc⟩⟩
  · intro ⟨htaken, hall⟩
    exact ⟨htaken, fun c hc => (hall c hc).row, fun c hc => (hall c hc).settled,
      fun c hc => (hall c hc).relatives⟩

theorem exists_carrier {N : NameTable} {later : List Row} (hexp : p.1.line.Exports x)
    (h : RowContext.Settles table use ⟨N, p, later⟩) : ∃ q ∈ later, q.line.name? = some x := by
  by_contra hnone
  refine h.settled x ⟨.inl hexp, ?_⟩
  rw [RowContext.entryFor?, if_pos hexp, firstEntry_eq_none_iff]
  exact fun q hq hx => hnone ⟨q, hq, hx⟩

theorem unlabelled_before {pre post : List Row} {r : Row}
    (h : NameTable.TakesFrom table (fun _ => none) (pre ++ r :: post))
    (himp : ∀ q ∈ pre, ¬ q.line.Imports x) (hr : r.line.name? = some x) :
    ∀ q ∈ pre, q.line.name? ≠ some x := by
  have hnone := (h pre r post rfl).label x hr
  rw [NameTable.address?_afterRows himp] at hnone
  exact addressOf_eq_none_iff.1 (Option.or_eq_none_iff.1 hnone).1

theorem MovedRows.rowFits_iff
    (h : MovedRows table opener closer front between back e ps qs us p p' ends)
    (hexp : e.Exports x) : RowFits table use p ↔ RowFits table use p' := by
  have hline : p.1.line = p'.1.line := h.line.trans h.line'.symm
  have hst : Statement.ofMnemonic .sectioned table p.1.line.mnemonic = .exportName :=
    (Statement.ofMnemonic_eq_exportName_iff table _).2 (h.line ▸ hexp.1)
  have hfits : ∀ a b : Int, p.1.line.LinkFits table use a → p.1.line.LinkFits table use b := by
    intro a b hfit
    cases hfit with
    | inl hfit => simp [Line.Fits, hst] at hfit
    | inr hfit => exact .inr hfit
  constructor
  · intro hp
    exact ⟨hline ▸ hfits _ _ hp.fits, hline ▸ hp.legible, h.space'.trans (by rw [h.line'])⟩
  · intro hp
    exact ⟨hfits _ _ (hline.symm ▸ hp.fits), hline ▸ hp.legible, h.space.trans (by rw [h.line])⟩

/-- What both sections have in common if one of them is without problems and the directive is moved
over no row that carries its name: it may be moved, and no row in front declares or carries the
name. -/
structure Movable (table : OpTable) (x : String) (ps qs us : List (Row × Int)) (ends : List Row) :
    Prop where
  passable : Passable x (qs.map (·.1)) (us.map (·.1) ++ ends)
  undeclared : ∀ q ∈ ps.map (·.1), ¬ (q.line.Exports x ∨ q.line.Imports x)
  unlabelled : ∀ q ∈ ps.map (·.1), q.line.name? ≠ some x

theorem Movable.unimported (h : Movable table x ps qs us ends) :
    ¬ (NameTable.afterRows .onePass table (fun _ => none) (ps.map (·.1))).Imported x := by
  rw [NameTable.imported_afterRows_empty]
  intro ⟨q, hq, hx⟩
  exact h.undeclared q hq (.inr hx)

theorem MovedRows.contexts_before
    (h : MovedRows table opener closer front between back e ps qs us p p' ends) :
    contextsOf table (lineBefore opener closer front between back e) =
      contexts table (fun _ => none) (ps ++ p :: (qs ++ us)) ends := by
  rw [contextsOf, h.before, h.ends_before]

theorem MovedRows.contexts_behind
    (h : MovedRows table opener closer front between back e ps qs us p p' ends) :
    contextsOf table (lineBehind opener closer front between back e) =
      contexts table (fun _ => none) (ps ++ (qs ++ p' :: us)) ends := by
  rw [contextsOf, h.behind, h.ends_behind]

theorem MovedRows.takes_iff
    (h : MovedRows table opener closer front between back e ps qs us p p' ends) (hexp : e.Exports x)
    (hname : e.name? = none) {N : NameTable} {rest : List Row} :
    NameTable.TakesFrom table N (ps.map (·.1) ++ p.1 :: (qs.map (·.1) ++ rest)) ↔
      NameTable.TakesFrom table N (ps.map (·.1) ++ (qs.map (·.1) ++ p'.1 :: rest)) := by
  rw [NameTable.takesFrom_append, NameTable.takesFrom_moved hexp hname h.line h.line',
    ← NameTable.takesFrom_append]

theorem MovedRows.settles_iff
    (h : MovedRows table opener closer front between back e ps qs us p p' ends) (hexp : e.Exports x)
    (hname : e.name? = none) (hmovable : Movable table x ps qs us ends) :
    (∀ c ∈ contexts table (fun _ => none) (ps ++ p :: (qs ++ us)) ends, c.Settles table use) ↔
      ∀ c ∈ contexts table (fun _ => none) (ps ++ (qs ++ p' :: us)) ends, c.Settles table use :=
  settles_moved_iff (h.line ▸ hexp) (h.line ▸ hname) (h.line.trans h.line'.symm) hmovable.unimported
    hmovable.passable (h.rowFits_iff hexp)

theorem MovedRows.movable
    (h : MovedRows table opener closer front between back e ps qs us p p' ends) (hexp : e.Exports x)
      (htaken : NameTable.TakesFrom table (fun _ => none)
        (ps.map (·.1) ++ (qs.map (·.1) ++ p'.1 :: (us.map (·.1) ++ ends))))
    (hcarried : ∃ q ∈ us.map (·.1) ++ ends, q.line.name? = some x) :
    Movable table x ps qs us ends := by
  have hexp' : p'.1.line.Exports x := h.line' ▸ hexp
  rw [← List.append_assoc] at htaken
  have hundeclared := fun q hq => htaken.not_declares_of_exports hexp' (q := q) hq
  obtain ⟨q, hq, hx⟩ := hcarried
  obtain ⟨mid, tail, hcut⟩ := List.append_of_mem hq
  have hbefore : ∀ k ∈ ps.map (·.1) ++ qs.map (·.1), k.line.name? ≠ some x := by
    intro k hk
    rw [hcut, ← List.cons_append, ← List.append_assoc] at htaken
    refine unlabelled_before htaken (fun k' hk' himp => ?_) hx k (List.mem_append_left _ hk)
    rw [List.mem_append, List.mem_cons] at hk'
    obtain hk' | rfl | hk' := hk'
    · exact hundeclared k' (List.mem_append_left _ hk') (.inr himp)
    · exact hexp'.not_imports himp
    · exact hundeclared k' (by rw [hcut]; simp [hk']) (.inr himp)
  exact
    { passable :=
        { unlabelled := fun k hk => hbefore k (List.mem_append_right _ hk)
          carried := ⟨q, hq, hx⟩
          undeclared :=
            fun k hk =>
              hundeclared k (by rw [List.append_assoc]; exact List.mem_append_right _ hk) }
      undeclared :=
        fun k hk => hundeclared k (by rw [List.append_assoc]; exact List.mem_append_left _ hk)
      unlabelled := fun k hk => hbefore k (List.mem_append_left _ hk) }

theorem MovedRows.movable_of_fits
    (h : MovedRows table opener closer front between back e ps qs us p p' ends) (hexp : e.Exports x)
    (hfits : SectionFits table use (lineBehind opener closer front between back e)) :
    Movable table x ps qs us ends := by
  rw [sectionFits_iff, h.nameRows_behind, h.contexts_behind] at hfits
  have hsettles := hfits.2 _ (by rw [← List.append_assoc]; exact mem_contexts_append p' us)
  exact h.movable hexp hfits.1 (exists_carrier (h.line' ▸ hexp) hsettles)

end

/-- A section keeps without problems when the directive is moved down, if and only if no line that
it is moved over carries its name; moving it up does no harm. -/
theorem sectionFits_moved_iff (hexp : e.Exports x) (hname : e.name? = none) :
    SectionFits table use (lineBehind opener closer front between back e) ↔
      SectionFits table use (lineBefore opener closer front between back e) ∧ ∀ l ∈ between,
      l.name? ≠ some x := by
  obtain ⟨ps, qs, us, p, p', ends, hrows⟩ :=
    exists_movedRows table opener closer front between back hexp
  have hexp₁ : p.1.line.Exports x := hrows.line ▸ hexp
  have hbetween : (∀ l ∈ between, l.name? ≠ some x) ↔ ∀ q ∈ qs.map (·.1),
      q.line.name? ≠ some x := by
    rw [← hrows.between, List.forall_mem_map, List.forall_mem_map]
  rw [hbetween]
  constructor
  · intro hfits
    have hmovable := hrows.movable_of_fits hexp hfits
    rw [sectionFits_iff, hrows.nameRows_behind, hrows.contexts_behind] at hfits
    rw [sectionFits_iff, hrows.nameRows_before, hrows.contexts_before, hrows.takes_iff hexp hname,
      hrows.settles_iff hexp hname hmovable]
    exact ⟨hfits, hmovable.passable.unlabelled⟩
  · intro ⟨hfits, hunlabelled⟩
    rw [sectionFits_iff, hrows.nameRows_before, hrows.contexts_before, hrows.takes_iff hexp hname]
      at hfits
    obtain ⟨htaken, hall⟩ := hfits
    obtain ⟨q, hq, hx⟩ := exists_carrier hexp₁ (hall _ (mem_contexts_append p (qs ++ us)))
    rw [List.map_append, List.append_assoc] at hq
    have hcarried : q ∈ us.map (·.1) ++ ends :=
      (List.mem_append.1 hq).resolve_left fun hq => hunlabelled q hq hx
    have hmovable := hrows.movable hexp htaken ⟨q, hcarried, hx⟩
    rw [sectionFits_iff, hrows.nameRows_behind, hrows.contexts_behind]
    exact ⟨htaken, (hrows.settles_iff hexp hname hmovable).1 hall⟩

theorem reaches_cons {l : Line} {ls : List Line} {b : Int} :
    Reaches table (l :: ls) b ↔ b = 0 ∨ Reaches table ls (b - l.extent .sectioned table) := by
  unfold Reaches
  constructor
  · intro ⟨pre, hpre, hb⟩
    obtain rfl | ⟨rest, rfl, hrest⟩ := List.prefix_cons_iff.1 hpre
    · exact .inl hb.symm
    · refine .inr ⟨rest, hrest, ?_⟩
      rw [extentOf] at hb
      omega
  · intro h
    cases h with
    | inl h => exact ⟨[], List.nil_prefix, h.symm⟩
    | inr h =>
      obtain ⟨rest, hrest, hb⟩ := h
      refine ⟨l :: rest, List.prefix_cons_iff.2 (.inr ⟨rest, rfl, hrest⟩), ?_⟩
      rw [extentOf]
      omega

theorem reaches_insert {ls rest : List Line} {b : Int} (hext : e.extent .sectioned table = 0) :
    Reaches table (ls ++ e :: rest) b ↔ Reaches table (ls ++ rest) b := by
  induction ls generalizing b with
  | nil =>
    rw [List.nil_append, List.nil_append, reaches_cons, hext, Int.sub_zero]
    refine or_iff_right_of_imp fun hb => ?_
    exact ⟨[], List.nil_prefix, hb.symm⟩
  | cons l ls ih => rw [List.cons_append, List.cons_append, reaches_cons, reaches_cons, ih]

theorem sectionFrame_moved_iff (hexp : e.Exports x) (hname : e.name? = none) :
    SectionFrame table (lineBehind opener closer front between back e) ↔
      SectionFrame table (lineBefore opener closer front between back e) := by
  obtain ⟨ps, qs, us, p, p', ends, hrows⟩ :=
    exists_movedRows table opener closer front between back hexp
  have hext := extent_of_exports table hexp
  have hlabels :
      (∀ r ∈ (lineBehind opener closer front between back e).nameRows table,
        r.line.LabelFits r.address) ↔
      ∀ r ∈ (lineBefore opener closer front between back e).nameRows table,
      r.line.LabelFits r.address := by
    have hbare : ∀ r : Row, r.line = e → r.line.LabelFits r.address :=
      fun r hr hname' => by simp [hr, hname] at hname'
    rw [hrows.nameRows_before, hrows.nameRows_behind]
    simp only [List.forall_mem_append, List.forall_mem_cons, hbare _ hrows.line,
      hbare _ hrows.line', true_and]
  have hreaches : ∀ b, Reaches table (lineBehind opener closer front between back e).body b ↔
      Reaches table (lineBefore opener closer front between back e).body b := by
    intro b
    rw [lineBehind, lineBefore, ← List.append_assoc, reaches_insert hext, reaches_insert hext,
      List.append_assoc]
  constructor
  · intro h
    exact ⟨h.named, hlabels.1 h.labels, h.number, (hreaches _).1 h.entry⟩
  · intro h
    exact ⟨h.named, hlabels.2 h.labels, h.number, (hreaches _).2 h.entry⟩

theorem names_moved (hexp : e.Exports x) (hname : e.name? = none) :
    (lineBehind opener closer front between back e).names .onePass table =
      (lineBefore opener closer front between back e).names .onePass table := by
  obtain ⟨ps, qs, us, p, p', ends, hrows⟩ :=
    exists_movedRows table opener closer front between back hexp
  rw [ControlSection.names, ControlSection.names, hrows.nameRows_before, hrows.nameRows_behind]
  simp only [NameTable.afterRows_append, NameTable.afterRows, hrows.line, hrows.line',
    NameTable.after_of_exports hexp hname, NameTable.afterRows_withExport]

/-! ## Records -/

section

variable (ht : table.Sized .sectioned) (hexp : e.Exports x) (hname : e.name? = none)
  (hfits : SectionFits table use (lineBehind opener closer front between back e))

include hexp in
theorem modified_moved :
    ((lineBehind opener closer front between back e).rows table).flatMap (modifiedNames table) =
      ((lineBefore opener closer front between back e).rows table).flatMap
        (modifiedNames table) := by
  obtain ⟨ps, qs, us, p, p', ends, hrows⟩ :=
    exists_movedRows table opener closer front between back hexp
  have hnone : ∀ q : Row × Int, q.1.line = e → modifiedNames table q = [] := fun q hq => by
    simp only [modifiedNames, hq, (Statement.ofMnemonic_eq_exportName_iff table _).2 hexp.1]
  simp only [hrows.before, hrows.behind, List.flatMap_append, List.flatMap_cons, hnone _ hrows.line,
    hnone _ hrows.line', List.nil_append]

include ht hexp hname hfits

theorem frame_recordsOf_moved :
    (recordsOf table (lineBehind opener closer front between back e)).filter ObjectRecord.isFrame =
      (recordsOf table (lineBefore opener closer front between back e)).filter
        ObjectRecord.isFrame := by
  obtain ⟨ps, qs, us, p, p', ends, hrows⟩ :=
    exists_movedRows table opener closer front between back hexp
  have hmovable := hrows.movable_of_fits hexp hfits
  have hqs : ∀ q ∈ qs, q.1.line.LinkFits table use q.1.address := fun q hq =>
    hfits.linkFits q (by rw [hrows.behind]; simp [hq])
  have hcontexts :=
    frame_moved (hrows.line ▸ hexp) (hrows.line ▸ hname) (hrows.line.trans hrows.line'.symm)
      hmovable.unimported hmovable.passable ht hqs
  unfold recordsOf
  rw [modified_moved hexp, names_moved hexp hname, length_moved, hrows.contexts_before,
    hrows.contexts_behind]
  simp only [List.filter_cons, List.filter_append, hcontexts]
  rfl

/-- Without those of exported names all records are the same if and only if the directive is not
moved over the first line that refers to its name. -/
theorem recordsOf_moved_iff :
    (recordsOf table (lineBehind opener closer front between back e)).filter (!·.isDefinition) =
        (recordsOf table (lineBefore opener closer front between back e)).filter (!·.isDefinition) ↔
      ((∃ l ∈ between, l.RefersTo table x) → ∃ l ∈ front, l.RefersTo table x) := by
  obtain ⟨ps, qs, us, p, p', ends, hrows⟩ :=
    exists_movedRows table opener closer front between back hexp
  have hmovable := hrows.movable_of_fits hexp hfits
  have hqs : ∀ q ∈ qs, q.1.line.LinkFits table use q.1.address := fun q hq =>
    hfits.linkFits q (by rw [hrows.behind]; simp [hq])
  have hcontexts :=
    records_moved_iff (hrows.line ▸ hexp) (hrows.line ▸ hname) (hrows.line.trans hrows.line'.symm)
      hmovable.unimported hmovable.passable ht hqs
  have hknown : NameTable.afterRows .onePass table (fun _ => none) (ps.map (·.1)) x ≠ none ↔
      ∃ l ∈ front, l.RefersTo table x := by
    rw [← Option.isSome_iff_ne_none, NameTable.isSome_afterRows, ← hrows.front]
    simp only [List.mem_map, exists_exists_and_eq_and]
    constructor
    · intro h
      obtain h | ⟨q, hq, h⟩ := h
      · cases h
      · have hdeclared := hmovable.undeclared q.1 (List.mem_map_of_mem hq)
        have hlabel := hmovable.unlabelled q.1 (List.mem_map_of_mem hq)
        exact ⟨q, hq, by tauto⟩
    · intro ⟨q, hq, hx⟩
      exact .inr ⟨q, hq, .inr (.inr (.inr ⟨trivial, hx⟩))⟩
  have hbetween : (∃ q ∈ qs, q.1.line.RefersTo table x) ↔ ∃ l ∈ between, l.RefersTo table x := by
    rw [← hrows.between]
    simp only [List.mem_map, exists_exists_and_eq_and]
  rw [hknown, hbetween] at hcontexts
  have hopener : (lineBehind opener closer front between back e).opener =
      (lineBefore opener closer front between back e).opener := rfl
  have hentry : (lineBehind opener closer front between back e).entry =
      (lineBefore opener closer front between back e).entry := rfl
  rw [← hcontexts]
  unfold recordsOf
  rw [hopener, hentry, modified_moved hexp, names_moved hexp hname, length_moved,
    hrows.contexts_before, hrows.contexts_behind, List.filter_cons_of_pos rfl,
    List.filter_cons_of_pos rfl, List.filter_append, List.filter_append, List.filter_append,
    List.filter_append, List.cons_inj_right, List.append_cancel_right_eq,
    List.append_cancel_right_eq]
  exact eq_comm

end

/-! ## Programs with the directive in two places -/

/-- The lines behind the last directive that opens a section. -/
def openLines (ls : List Line) : List Line :=
  ls.rtakeWhile fun l => l.mnemonic ≠ "START" ∧ l.mnemonic ≠ "CSECT"

theorem exists_sectionsFrom_append {first : Line} (hfirst : first.mnemonic = "START")
    {ls : List Line} (hls : ∀ l ∈ ls, l.mnemonic ≠ "START" ∧ l.mnemonic ≠ "END") :
      ∃ done opener, ∀ rest,
        sectionsFrom first (ls ++ rest) = done ++ prependBody (openLines (first :: ls))
          (sectionsFrom opener rest) := by
  induction ls using List.reverseRecOn with
  | nil =>
    refine ⟨[], first, fun rest => ?_⟩
    have hopen : openLines [first] = [] := List.rtakeWhile_concat_neg _ [] first (by simp [hfirst])
    rw [hopen, prependBody_nil]
    rfl
  | append_singleton ls l ih =>
    obtain ⟨done, opener, hcut⟩ := ih fun k hk => hls k (List.mem_append_left _ hk)
    obtain ⟨hstart, hend⟩ := hls l (by simp)
    by_cases hsection : l.mnemonic = "CSECT"
    · have hopen : openLines (first :: (ls ++ [l])) = [] :=
        List.rtakeWhile_concat_neg _ (first :: ls) l (by simp [hsection])
      refine ⟨done ++ [⟨opener, openLines (first :: ls), l⟩], l, fun rest => ?_⟩
      rw [List.append_assoc, hcut, List.singleton_append, sectionsFrom, if_neg hend,
        if_pos hsection, prependBody, hopen, prependBody_nil, List.append_nil, List.append_assoc,
        List.singleton_append]
    · have hopen : openLines (first :: (ls ++ [l])) = openLines (first :: ls) ++ [l] :=
        List.rtakeWhile_concat_pos _ (first :: ls) l (by simp [hstart, hsection])
      refine ⟨done, opener, fun rest => ?_⟩
      rw [List.append_assoc, hcut, List.singleton_append, sectionsFrom, if_neg hend,
        if_neg hsection, hopen, prependBody_append]

theorem sectionsFrom_append (opener : Line) {ls : List Line}
    (hls : ∀ l ∈ ls, l.mnemonic ≠ "START" ∧ l.mnemonic ≠ "CSECT" ∧ l.mnemonic ≠ "END")
    (rest : List Line) :
    sectionsFrom opener (ls ++ rest) = prependBody ls (sectionsFrom opener rest) := by
  induction ls with
  | nil => rw [List.nil_append, prependBody_nil]
  | cons l ls ih =>
    obtain ⟨-, hsection, hend⟩ := hls l List.mem_cons_self
    rw [List.cons_append, sectionsFrom, if_neg hend, if_neg hsection,
      ih fun k hk => hls k (List.mem_cons_of_mem _ hk), ← prependBody_append, List.singleton_append]

theorem framed_cons_iff {first : Line} {ls : List Line} : TwoPass.Sectioned.Framed (first :: ls) ↔
      first.mnemonic = "START" ∧ (∃ l ∈ ls, l.mnemonic = "END") ∧
        ∀ l ∈ ls.takeWhile (·.mnemonic ≠ "END"), l.mnemonic ≠ "START" := by
  constructor
  · intro ⟨first', body, last, rest, heq, hfirst, hbody, hlast⟩
    obtain ⟨rfl, rfl⟩ := List.cons.inj heq
    refine ⟨hfirst, ⟨last, by simp, hlast⟩, fun l hl => ?_⟩
    rw [List.takeWhile_append_of_pos (by simpa using fun l hl => (hbody l hl).2),
      List.takeWhile_cons_of_neg (by simp [hlast]), List.append_nil] at hl
    exact (hbody l hl).1
  · intro ⟨hfirst, ⟨l, hl, hend⟩, hstarts⟩
    obtain ⟨last, rest, hdrop⟩ :=
      List.exists_cons_of_ne_nil (l := ls.dropWhile (·.mnemonic ≠ "END")) (by
      rw [ne_eq, List.dropWhile_eq_nil_iff]
      intro hall
      simpa [hend] using hall l hl)
    have hlast : last.mnemonic = "END" := by
      have hhead := List.head?_dropWhile_not (·.mnemonic ≠ "END") ls
      rw [hdrop] at hhead
      simpa using hhead
    refine ⟨first, ls.takeWhile (·.mnemonic ≠ "END"), last, rest, ?_, hfirst,
      fun k hk => ⟨hstarts k hk, ?_⟩, hlast⟩
    · rw [← hdrop, List.takeWhile_append_dropWhile]
    · simpa using List.mem_takeWhile_imp hk

/-- A line in front of other lines, or behind them. -/
structure MovedLine (front between : List Line) (e : Line) : Prop where
  front : ∀ l ∈ front, l.mnemonic ≠ "END"
  between : ∀ l ∈ between, l.mnemonic ≠ "START" ∧ l.mnemonic ≠ "CSECT" ∧ l.mnemonic ≠ "END"
  line : e.mnemonic = "EXTDEF"

theorem framed_append_iff (hfront : ∀ l ∈ front, l.mnemonic ≠ "END") {mid : List Line}
    (hne : mid ≠ []) (hmid : ∀ l ∈ mid, l.mnemonic ≠ "START" ∧ l.mnemonic ≠ "END") :
    TwoPass.Sectioned.Framed (front ++ (mid ++ back)) ↔
      ∃ first rest, front = first :: rest ∧ first.mnemonic = "START" ∧
      (∀ l ∈ rest, l.mnemonic ≠ "START") ∧
        (∃ l ∈ back, l.mnemonic = "END") ∧ ∀ l ∈ back.takeWhile (·.mnemonic ≠ "END"),
        l.mnemonic ≠ "START" := by
  have hpass : ∀ ls : List Line, (∀ l ∈ ls, l.mnemonic ≠ "END") → ∀ rest : List Line,
      (ls ++ rest).takeWhile (·.mnemonic ≠ "END") = ls ++ rest.takeWhile (·.mnemonic ≠ "END") :=
      fun ls hls rest =>
    List.takeWhile_append_of_pos (by simpa using hls)
  cases front with
  | nil =>
    obtain ⟨l, mid, rfl⟩ := List.exists_cons_of_ne_nil hne
    have hl := (hmid l List.mem_cons_self).1
    rw [List.nil_append, List.cons_append, framed_cons_iff]
    simp [hl]
  | cons first front =>
    have hfront : ∀ l ∈ front, l.mnemonic ≠ "END" :=
      fun l hl => hfront l (List.mem_cons_of_mem _ hl)
    have hends : (∃ l ∈ front ++ (mid ++ back), l.mnemonic = "END") ↔
        ∃ l ∈ back, l.mnemonic = "END" := by
      constructor
      · intro ⟨l, hl, hend⟩
        obtain hl | hl | hl : l ∈ front ∨ l ∈ mid ∨ l ∈ back := by simpa using hl
        · exact absurd hend (hfront l hl)
        · exact absurd hend (hmid l hl).2
        · exact ⟨l, hl, hend⟩
      · intro ⟨l, hl, hend⟩
        exact ⟨l, by simp [hl], hend⟩
    rw [List.cons_append, framed_cons_iff, hpass _ hfront, hpass _ fun l hl => (hmid l hl).2, hends,
      List.forall_mem_append, List.forall_mem_append]
    constructor
    · intro ⟨hfirst, hend, hstarts, _, hback⟩
      exact ⟨first, front, rfl, hfirst, hstarts, hend, hback⟩
    · intro ⟨first', rest, heq, hfirst, hstarts, hend, hback⟩
      obtain ⟨rfl, rfl⟩ := List.cons.inj heq
      exact ⟨hfirst, hend, hstarts, fun l hl => (hmid l hl).1, hback⟩

theorem MovedLine.framed_iff (h : MovedLine front between e) :
    TwoPass.Sectioned.Framed (front ++ (between ++ e :: back)) ↔
    TwoPass.Sectioned.Framed (front ++ e :: (between ++ back)) := by
  have hline : e.mnemonic ≠ "START" ∧ e.mnemonic ≠ "END" := by simp [h.line]
  have hbetween := fun l hl => And.intro (h.between l hl).1 (h.between l hl).2.2
  have hbehind : between ++ e :: back = (between ++ [e]) ++ back := by simp
  have hbefore : e :: (between ++ back) = (e :: between) ++ back := rfl
  rw [hbehind, hbefore, framed_append_iff h.front (by simp), framed_append_iff h.front (by simp)]
  · exact List.forall_mem_cons.2 ⟨hline, hbetween⟩
  · exact List.forall_mem_append.2 ⟨hbetween, by simpa using hline⟩

theorem MovedLine.exists_sections (h : MovedLine front between e)
    (hframed : TwoPass.Sectioned.Framed (front ++ e :: (between ++ back))) :
    ∃ done opener closer post secs,
      controlSections (front ++ e :: (between ++ back)) =
        done ++ lineBefore opener closer (openLines front) between post e :: secs ∧
      controlSections (front ++ (between ++ e :: back)) =
        done ++ lineBehind opener closer (openLines front) between post e :: secs := by
  have hline : e.mnemonic ≠ "START" ∧ e.mnemonic ≠ "CSECT" ∧ e.mnemonic ≠ "END" := by simp [h.line]
  have hbefore : e :: (between ++ back) = (e :: between) ++ back := rfl
  rw [hbefore, framed_append_iff h.front (by simp)] at hframed
  · obtain ⟨first, rest, rfl, hfirst, hstarts, ⟨last, hlast, hend⟩, -⟩ := hframed
    obtain ⟨body, tail, rfl⟩ := List.append_of_mem hlast
    obtain ⟨done, opener, hcut⟩ := exists_sectionsFrom_append hfirst fun l hl =>
      ⟨hstarts l hl, h.front l (List.mem_cons_of_mem _ hl)⟩
    obtain ⟨post, closer, secs, hsecs⟩ := exists_cons_sectionsFrom opener body tail hend
    refine ⟨done, opener, closer, post, secs, ?_, ?_⟩
    · rw [hbefore, List.cons_append, controlSections, hcut,
        sectionsFrom_append opener (List.forall_mem_cons.2 ⟨hline, h.between⟩), hsecs]
      simp [prependBody, lineBefore]
    · have hbehind :
          between ++ e :: (body ++ last :: tail) = (between ++ [e]) ++ (body ++ last :: tail) := by
            simp
      rw [hbehind, List.cons_append, controlSections, hcut,
        sectionsFrom_append opener (List.forall_mem_append.2 ⟨h.between, by simpa using hline⟩),
        hsecs]
      simp [prependBody, lineBehind]
  · exact List.forall_mem_cons.2
      ⟨⟨hline.1, hline.2.2⟩, fun l hl => ⟨(h.between l hl).1, (h.between l hl).2.2⟩⟩

/-! ## One section in the place of another -/

theorem ProgramFits.replace {program program' : List Line} {done secs : List ControlSection}
    {sec sec' : ControlSection} (h : ProgramFits table use program)
    (hsecs : controlSections program = done ++ sec :: secs)
    (hsecs' : controlSections program' = done ++ sec' :: secs)
    (hframed : TwoPass.Sectioned.Framed program') (hhead : program'.head? = program.head?)
    (hopener : sec'.opener = sec.opener) (hlength : sec'.length table = sec.length table)
    (hfits : SectionFits table use sec') (hframe : SectionFrame table sec') :
    ProgramFits table use program' := by
  have hmem : ∀ P : ControlSection → Prop, (∀ s ∈ controlSections program, P s) → P sec' →
      ∀ s ∈ controlSections program', P s := by
    intro P hall hsec
    rw [hsecs, List.forall_mem_append, List.forall_mem_cons] at hall
    rw [hsecs', List.forall_mem_append, List.forall_mem_cons]
    exact ⟨hall.1, hsec, hall.2.2⟩
  have hlast : ((controlSections program').map fun s => s.length table).getLast? =
      ((controlSections program).map fun s => s.length table).getLast? := by
    rw [hsecs, hsecs', List.map_append, List.map_append, List.map_cons, List.map_cons, hlength]
  exact
    { framed := hframed
      load := by rw [hhead]; exact h.load
      distinct := by
        have hdistinct := h.distinct
        rw [hsecs, List.map_append, List.map_cons] at hdistinct
        rw [hsecs', List.map_append, List.map_cons, hopener]
        exact hdistinct
      fits := hmem _ h.fits hfits
      frames := hmem _ h.frames hframe
      ends := by
        rw [List.getLast?_map, List.getLast?_map] at hlast
        intro s hs
        have hn : s.length table ∈
            ((controlSections program).getLast?.map fun s => s.length table) :=
          hlast ▸ Option.mem_map_of_mem _ hs
        obtain ⟨t, ht, hn⟩ := Option.mem_map.1 hn
        rw [← hn]
        exact h.ends t ht }

theorem MovedLine.head?_eq (h : MovedLine front between e)
    (hframed : TwoPass.Sectioned.Framed (front ++ e :: (between ++ back))) :
    (front ++ (between ++ e :: back)).head? = (front ++ e :: (between ++ back)).head? := by
  cases front with
  | nil =>
    have hstart := (framed_cons_iff.1 hframed).1
    rw [h.line] at hstart
    exact absurd hstart (by decide)
  | cons first front => rfl

/-- A directive in a section without problems exports one name and has no label. -/
theorem SectionFits.exports {sec : ControlSection} (h : SectionFits table use sec)
    (he : e ∈ sec.body) (hline : e.mnemonic = "EXTDEF") : e.name? = none ∧ ∃ x, e.Exports x := by
  rw [← placed_map_line .sectioned table sec.opener.label 0 sec.body, List.mem_map] at he
  obtain ⟨p, hp, rfl⟩ := he
  obtain ⟨hname, x, hops⟩ :=
    (h.linkFits p hp).operands_of_export ((Statement.ofMnemonic_eq_exportName_iff _ _).2 hline)
  exact ⟨hname, x, hline, onlyName?_eq_some_iff.2 hops⟩

theorem MovedLine.programFits_iff (h : MovedLine front between e) (hexp : e.Exports x)
    (hname : e.name? = none) :
    ProgramFits table use (front ++ (between ++ e :: back)) ↔
      ProgramFits table use (front ++ e :: (between ++ back)) ∧ ∀ l ∈ between,
      l.name? ≠ some x := by
  constructor
  · intro hfits
    have hframed := h.framed_iff.1 hfits.framed
    obtain ⟨done, opener, closer, post, secs, hbefore, hbehind⟩ := h.exists_sections hframed
    have hmem : lineBehind opener closer (openLines front) between post e ∈
        controlSections (front ++ (between ++ e :: back)) := by simp [hbehind]
    obtain ⟨hsec, hunlabelled⟩ := (sectionFits_moved_iff hexp hname).1 (hfits.fits _ hmem)
    have hframe := (sectionFrame_moved_iff hexp hname).1 (hfits.frames _ hmem)
    exact ⟨hfits.replace hbehind hbefore hframed (h.head?_eq hframed).symm rfl length_moved.symm
      hsec hframe, hunlabelled⟩
  · intro ⟨hfits, hunlabelled⟩
    have hframed := hfits.framed
    obtain ⟨done, opener, closer, post, secs, hbefore, hbehind⟩ := h.exists_sections hframed
    have hmem : lineBefore opener closer (openLines front) between post e ∈
        controlSections (front ++ e :: (between ++ back)) := by simp [hbefore]
    have hsec := (sectionFits_moved_iff hexp hname).2 ⟨hfits.fits _ hmem, hunlabelled⟩
    have hframe := (sectionFrame_moved_iff hexp hname).2 (hfits.frames _ hmem)
    exact hfits.replace hbefore hbehind (h.framed_iff.2 hframed)
      (h.head?_eq hframed) rfl length_moved hsec hframe

/-- In a program without problems the line exports one name, wherever it stands. -/
theorem MovedLine.exports (h : MovedLine front between e)
    (hfits : ProgramFits table use (front ++ e :: (between ++ back)) ∨
    ProgramFits table use (front ++ (between ++ e :: back))) : e.name? = none ∧
    ∃ x, e.Exports x := by
  have hframed : TwoPass.Sectioned.Framed (front ++ e :: (between ++ back)) :=
    hfits.elim (·.framed) fun hfits => h.framed_iff.1 hfits.framed
  obtain ⟨done, opener, closer, post, secs, hbefore, hbehind⟩ := h.exists_sections hframed
  cases hfits with
  | inl hfits =>
    have hsec :=
      hfits.fits (lineBefore opener closer (openLines front) between post e) (by simp [hbefore])
    exact hsec.exports (by simp [lineBefore]) h.line
  | inr hfits =>
    have hsec :=
      hfits.fits (lineBehind opener closer (openLines front) between post e) (by simp [hbehind])
    exact hsec.exports (by simp [lineBehind]) h.line

end Sectioned

/-- The program with the directive behind the lines `between` is accepted if and only if the one
with the directive in front of them is and none of them carries its name.  Then the names and all
records but those of code and exports are the same, and those of code are if and only if the
directive is not moved over the first reference to its name in the section. -/
theorem moved_export_iff (table : OpTable) (ht : table.Sized .sectioned) (i : Int)
    (front between back : List Line) (e : Line) (h : Sectioned.MovedLine front between e) :
    ((∃ v, (traceProgram .sectioned table (.ofIndex i)
      (front ++ (between ++ e :: back))).AcceptedWith v) ↔
      (∃ v, (traceProgram .sectioned table (.ofIndex i)
        (front ++ e :: (between ++ back))).AcceptedWith v) ∧
        ∀ x, e.Exports x → ∀ l ∈ between, l.name? ≠ some x) ∧
    ∀ v v', (traceProgram .sectioned table (.ofIndex i)
      (front ++ e :: (between ++ back))).AcceptedWith v →
      (traceProgram .sectioned table (.ofIndex i) (front ++ (between ++ e :: back))).AcceptedWith
        v' →
      ∃ x sections sections' rs rs', e.Exports x ∧ v.symbols = .sectioned sections ∧
      v'.symbols = .sectioned sections' ∧
        (∀ k, (sections'.get? k).map (fun names => names.get?) = (sections.get? k).map
          (fun names => names.get?)) ∧
        v.records = some rs ∧ v'.records = some rs' ∧
        rs'.filter (·.isFrame) = rs.filter (·.isFrame) ∧
        (rs'.filter (!·.isDefinition) = rs.filter (!·.isDefinition) ↔
          ((∃ l ∈ between, l.RefersTo table x) → ∃ l ∈ Sectioned.openLines front,
            l.RefersTo table x)) := by
  have haccepted :
      ∀ program, (∃ v, (traceProgram .sectioned table (.ofIndex i) program).AcceptedWith v) ↔
      Sectioned.ProgramFits table (.ofIndex i) program :=
      fun program => Sectioned.accepted_iff ht program
  constructor
  · rw [haccepted, haccepted]
    constructor
    · intro hfits
      obtain ⟨hname, x, hexp⟩ := h.exports (.inr hfits)
      obtain ⟨hbefore, hunlabelled⟩ := (h.programFits_iff hexp hname).1 hfits
      refine ⟨hbefore, fun y hy => ?_⟩
      obtain rfl : x = y := Option.some.inj (hexp.2.symm.trans hy.2)
      exact hunlabelled
    · intro ⟨hfits, hunlabelled⟩
      obtain ⟨hname, x, hexp⟩ := h.exports (.inl hfits)
      exact (h.programFits_iff hexp hname).2 ⟨hfits, hunlabelled x hexp⟩
  · intro v v' hv hv'
    have hprogram := (haccepted _).1 ⟨v, hv⟩
    obtain ⟨hname, x, hexp⟩ := h.exports (.inl hprogram)
    obtain ⟨done, opener, closer, post, secs, hbefore, hbehind⟩ := h.exists_sections hprogram.framed
    obtain ⟨hfault, hlast, hfound⟩ := hv
    obtain ⟨hfault', hlast', hfound'⟩ := hv'
    obtain ⟨rs, hrs⟩ := Sectioned.records_of_found hfault hlast hfound
    obtain ⟨rs', hrs'⟩ := Sectioned.records_of_found hfault' hlast' hfound'
    obtain ⟨rfl, -, sections, hsections, htables⟩ := Sectioned.of_trace ht hfault hlast hrs
    obtain ⟨rfl, hfits, sections', hsections', htables'⟩ :=
      Sectioned.of_trace ht hfault' hlast' hrs'
    have hsec : Sectioned.SectionFits table (.ofIndex i)
        (Sectioned.lineBehind opener closer (Sectioned.openLines front) between post e) :=
        hfits _ (by simp [hbehind])
    refine ⟨x, sections, sections', _, _, hexp, hsections, hsections', fun k => ?_, hrs,
      hrs', ?_, ?_⟩
    · rw [htables, htables', hbefore, hbehind, tablesOf, tablesOf, List.map_append, List.map_append,
        List.map_cons, List.map_cons, Sectioned.names_moved hexp hname]
      rfl
    · simp only [hbefore, hbehind, List.flatMap_append, List.flatMap_cons, List.filter_append,
        Sectioned.frame_recordsOf_moved ht hexp hname hsec]
    · simp only [hbefore, hbehind, List.flatMap_append, List.flatMap_cons, List.filter_append,
        List.append_cancel_left_eq, List.append_cancel_right_eq,
        Sectioned.recordsOf_moved_iff ht hexp hname hsec]

/-- The program of an export of `X` behind some lines, in front of others. -/
def exportAmong (front back : List Line) : List Line :=
  [⟨some "P", ⟨"START", []⟩⟩] ++ (front ++ ⟨none, ⟨"EXTDEF", [.direct "X"]⟩⟩ :: back)

/-- Behind the line that carries the name the export is refused, and over a jump to the name it
cannot be moved without a change to the code. -/
theorem export_moved_over_label_and_jump :
    (OpTable.ofTriples [("NOP", 1, 1), ("JMP", 2, 4)]).Sized .sectioned ∧
      (∃ v, (traceProgram .sectioned (.ofTriples [("NOP", 1, 1), ("JMP", 2, 4)]) (.ofIndex 2)
        (exportAmong [] [⟨some "X", ⟨"NOP", []⟩⟩, ⟨none, ⟨"END", []⟩⟩])).AcceptedWith v) ∧
      (¬ ∃ v, (traceProgram .sectioned (.ofTriples [("NOP", 1, 1), ("JMP", 2, 4)]) (.ofIndex 2)
        (exportAmong [⟨some "X", ⟨"NOP", []⟩⟩] [⟨none, ⟨"END", []⟩⟩])).AcceptedWith v) ∧
      ∃ v v' rs rs',
      (traceProgram .sectioned (.ofTriples [("NOP", 1, 1), ("JMP", 2, 4)]) (.ofIndex 2)
          (exportAmong [] [⟨none, ⟨"JMP", [.direct "X"]⟩⟩, ⟨some "X", ⟨"NOP", []⟩⟩,
            ⟨none, ⟨"END", []⟩⟩])).AcceptedWith v ∧
        (traceProgram .sectioned (.ofTriples [("NOP", 1, 1), ("JMP", 2, 4)]) (.ofIndex 2)
          (exportAmong [⟨none, ⟨"JMP", [.direct "X"]⟩⟩]
            [⟨some "X", ⟨"NOP", []⟩⟩, ⟨none, ⟨"END", []⟩⟩])).AcceptedWith v' ∧
        v.records = some rs ∧ v'.records = some rs' ∧
        rs'.filter (!·.isDefinition) ≠ rs.filter (!·.isDefinition) := by
  have ht : (OpTable.ofTriples [("NOP", 1, 1), ("JMP", 2, 4)]).Sized .sectioned :=
    OpTable.sized_of_forall (by decide +kernel)
  have hmoved : ∀ l : Line, l.mnemonic ≠ "START" ∧ l.mnemonic ≠ "CSECT" ∧ l.mnemonic ≠ "END" →
      Sectioned.MovedLine [⟨some "P", ⟨"START", []⟩⟩] [l] ⟨none, ⟨"EXTDEF", [.direct "X"]⟩⟩ :=
      fun l hl =>
    ⟨by decide, by simpa using hl, rfl⟩
  refine ⟨ht, ⟨_, rfl, rfl, rfl⟩, fun h => ?_, ?_⟩
  · have hmoved :=
      moved_export_iff _ ht 2 _ _ [⟨none, ⟨"END", []⟩⟩] _
        (hmoved ⟨some "X", ⟨"NOP", []⟩⟩ (by decide))
    exact (hmoved.1.1 h).2 "X" ⟨rfl, rfl⟩ _ (List.mem_singleton.2 rfl) rfl
  · have hmoved := moved_export_iff _ ht 2 _ _ [⟨some "X", ⟨"NOP", []⟩⟩, ⟨none, ⟨"END", []⟩⟩] _
      (hmoved ⟨none, ⟨"JMP", [.direct "X"]⟩⟩ (by decide))
    obtain ⟨v, hv⟩ :
        ∃ v, (traceProgram .sectioned (.ofTriples [("NOP", 1, 1), ("JMP", 2, 4)]) (.ofIndex 2)
          (exportAmong [] [⟨none, ⟨"JMP", [.direct "X"]⟩⟩, ⟨some "X", ⟨"NOP", []⟩⟩,
            ⟨none, ⟨"END", []⟩⟩])).AcceptedWith v :=
      ⟨_, rfl, rfl, rfl⟩
    obtain ⟨v', hv'⟩ := hmoved.1.2 ⟨⟨v, hv⟩, by simp [Line.name?]⟩
    obtain ⟨x, -, -, rs, rs', hx, -, -, -, hrs, hrs', -, hcode⟩ := hmoved.2 v v' hv hv'
    obtain rfl : x = "X" := Option.some.inj (hx.2.symm.trans rfl)
    refine ⟨v, v', rs, rs', hv, hv', hrs, hrs', fun heq => ?_⟩
    exact absurd (hcode.1 heq ⟨_, List.mem_singleton.2 rfl, rfl, rfl⟩) (by decide)

end Assembler.OnePass
