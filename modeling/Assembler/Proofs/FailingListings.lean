import Mathlib.Data.List.TakeWhile
import Assembler.Assembly
import Assembler.Proofs.BackPatching
import Assembler.Proofs.DataSize
import Assembler.Proofs.FailingRuns
import Assembler.Proofs.SectionedListing

/-! # First passes over sectioned programs that fail

In a sectioned program names belong to sections, so a line that gives or declares a name before any
section has begun makes the first pass fail.  In the end all names are put down with their addresses
in decimal, and an address that is too large for that makes it fail as well.  The addresses that
count are those that are still in the tables: a section that is begun again loses its names, and a
name that is imported loses its address (`spanOf`, `Describes`).  `listing_fails_iff` says for all
layouts which programs the first pass fails on. -/

namespace Assembler
open OnePass.Relocatable (upToEnd)
set_option autoImplicit false

/-! ## Spans of lines -/

theorem Storage.extent_of_allot_error {kind : Storage} {a : Int} {ops : List Operand} {p : Problem}
    (h : kind.allot a ops = .error p) : kind.extent ops = 0 := by
  have hzero : kind.allot 0 ops = .error p := by
    unfold Storage.allot at h ⊢
    split at h <;> simp_all
  rw [Storage.extent, hzero]

def Line.Opens (l : Line) : Prop := l.mnemonic = "START" ∨ l.mnemonic = "CSECT"

instance (l : Line) : Decidable l.Opens := inferInstanceAs (Decidable (_ ∨ _))

/-- Where the counter stands behind a line. -/
def Line.counterBehind (table : OpTable) (a : Int) (l : Line) : Int :=
  if l.mnemonic = "START" then (onlyNumber? l.operands).getD a
  else if l.mnemonic = "CSECT" then 0
  else a + l.extent .sectioned table

/-- Where the counter stands behind lines. -/
def counterBehind (table : OpTable) (a : Int) (ls : List Line) : Int :=
  ls.foldl (Line.counterBehind table) a

/-- The lines between a directive that begins a section and the next one, at their addresses. -/
structure Span where
  label : Option String
  rows : List Row
  deriving DecidableEq, Repr

/-- The spans of lines, the first line standing at the given address. -/
def spans (table : OpTable) : Int → List Line → List Span
  | _, [] => []
  | a, l :: ls =>
    let b := l.counterBehind table a
    if l.Opens then
      ⟨l.label, (placed .sectioned table l.label b (ls.takeWhile fun k => !k.Opens)).map (·.1)⟩ ::
        spans table b ls
    else spans table b ls

def spanOf (k : Option String) (sps : List Span) : Option Span :=
  sps.reverse.find? fun sp => sp.label = k

section

variable {table : OpTable} {l : Line}

theorem counterBehind_concat (table : OpTable) (a : Int) (ls : List Line) (l : Line) :
    counterBehind table a (ls ++ [l]) = l.counterBehind table (counterBehind table a ls) := by
  simp [counterBehind]

theorem Line.counterBehind_of_not_opens (hl : ¬ l.Opens) (a : Int) :
    l.counterBehind table a = a + l.extent .sectioned table := by
  obtain ⟨hstart, hsection⟩ := not_or.1 hl
  rw [Line.counterBehind, if_neg hstart, if_neg hsection]

theorem counterBehind_of_not_opens {ls : List Line} (hls : ∀ l ∈ ls, ¬ l.Opens) (a : Int) :
    counterBehind table a ls = a + extentOf .sectioned table ls := by
  induction ls generalizing a with
  | nil => simp [counterBehind, extentOf]
  | cons l ls ih =>
    have hrest := ih (fun k hk => hls k (List.mem_cons_of_mem _ hk)) (a + l.extent .sectioned table)
    have hcons :
        counterBehind table a (l :: ls) = counterBehind table (l.counterBehind table a) ls := rfl
    rw [hcons, Line.counterBehind_of_not_opens (hls l List.mem_cons_self), hrest, extentOf]
    omega

theorem spans_eq_nil_iff (table : OpTable) (a : Int) {ls : List Line} :
    spans table a ls = [] ↔ ∀ l ∈ ls, ¬ l.Opens := by
  induction ls generalizing a with
  | nil => simp [spans]
  | cons l ls ih =>
    rw [spans]
    by_cases hl : l.Opens
    · simp [hl]
    · simp [hl, ih]

theorem takeWhile_concat_of_opens (hl : l.Opens) (ls : List Line) :
    (ls ++ [l]).takeWhile (fun k => !k.Opens) = ls.takeWhile fun k => !k.Opens := by
  induction ls with
  | nil => simp [hl]
  | cons k ls ih => by_cases hk : k.Opens <;> simp [hk, ih]

theorem spans_concat_of_opens (hl : l.Opens) (a : Int) (ls : List Line) :
    spans table a (ls ++ [l]) = spans table a ls ++ [⟨l.label, []⟩] := by
  induction ls generalizing a with
  | nil => simp [spans, hl, placed]
  | cons k ls ih =>
    rw [List.cons_append, spans, spans, ih, takeWhile_concat_of_opens hl]
    by_cases hk : k.Opens <;> simp [hk]

theorem spans_concat (table : OpTable) (hl : ¬ l.Opens) (a : Int) (ls : List Line) :
    (spans table a ls = [] ∧ spans table a (ls ++ [l]) = []) ∨
      ∃ sps sp, spans table a ls = sps ++ [sp] ∧
        spans table a (ls ++ [l]) =
          sps ++ [⟨sp.label, sp.rows ++ [⟨counterBehind table a ls, l, sp.label⟩]⟩] := by
  induction ls generalizing a with
  | nil => exact .inl ⟨rfl, by simp [spans, hl]⟩
  | cons k ls ih =>
    have hcounter :
        counterBehind table a (k :: ls) = counterBehind table (k.counterBehind table a) ls := rfl
    rw [List.cons_append, spans, spans, hcounter]
    by_cases hk : k.Opens
    · simp only [hk, if_true]
      right
      rcases ih (k.counterBehind table a) with ⟨hnil, hnil'⟩ | ⟨sps, sp, hsps, hsps'⟩
      · have hnone := (spans_eq_nil_iff _ _).1 hnil
        have hwhole : ∀ ms : List Line, (∀ m ∈ ms, ¬ m.Opens) →
            ms.takeWhile (fun k => !k.Opens) = ms := by
          intro ms hms
          rw [List.takeWhile_eq_self_iff]
          simpa using hms
        have hboth : ∀ m ∈ ls ++ [l], ¬ m.Opens := by
          intro m hm
          rcases List.mem_append.1 hm with hm | hm
          · exact hnone m hm
          · rwa [List.mem_singleton.1 hm]
        refine ⟨[], _, by rw [hnil]; rfl, ?_⟩
        rw [hnil', hwhole _ hboth, hwhole _ hnone, placed_append, counterBehind_of_not_opens hnone]
        simp [placed]
      · have hopen : ¬ ∀ m ∈ ls, ¬ m.Opens :=
          fun hnone => by simp [(spans_eq_nil_iff _ _).2 hnone] at hsps
        have hsame :
            (ls ++ [l]).takeWhile (fun k => !k.Opens) = ls.takeWhile fun k => !k.Opens := by
          rw [List.takeWhile_append, if_neg]
          intro hlength
          refine hopen fun m hm => ?_
          have hself :=
            List.takeWhile_eq_self_iff.1 ((List.takeWhile_prefix _).eq_of_length hlength) m hm
          simpa using hself
        refine ⟨_ :: sps, sp, by rw [hsps]; rfl, ?_⟩
        rw [hsps', hsame]
        rfl
    · simp only [hk, if_false]
      exact ih (k.counterBehind table a)

theorem spanOf_concat (k : Option String) (sps : List Span) (sp : Span) :
    spanOf k (sps ++ [sp]) = if sp.label = k then some sp else spanOf k sps := by
  simp only [spanOf, List.reverse_append, List.reverse_singleton, List.singleton_append,
    List.find?_cons]
  split <;> simp_all

end

/-! ## The names of a span -/

/-- The line carries a name or declares one. -/
def Line.Names (l : Line) : Prop := ∃ x, l.name? = some x ∨ l.Declares x

/-- The line imports a name and is let through. -/
def Line.TakesIn (l : Line) (x : String) : Prop := l.Imports x ∧ l.name? = none

instance (l : Line) (x : String) : Decidable (l.TakesIn x) := inferInstanceAs (Decidable (_ ∧ _))

/-- The names that rows leave, whatever is wrong with them: an imported name has no address, any
other has that of the first row that carries it. -/
structure Describes (rows : List Row) (N : NameTable) : Prop where
  imported : ∀ x, (∃ r ∈ rows, r.line.TakesIn x) → N x = some ⟨none, some .imported⟩
  address : ∀ x, (∀ r ∈ rows, ¬ r.line.TakesIn x) → N.address? x = firstAddress rows x ∧
    ¬ N.Imported x
  linked : ∀ x e, N x = some e → e.address = none → e.linkage ≠ none

namespace Describes

variable {rows : List Row} {N : NameTable} {r : Row} {x : String}

theorem nil : Describes [] fun _ => none := by
  refine ⟨by simp, fun x _ => ⟨rfl, ?_⟩, by simp⟩
  simp [NameTable.Imported, NameTable.linkage?]

/-- A row without a name changes nothing. -/
theorem skip (h : Describes rows N) (hname : r.line.name? = none) (himp : ∀ x, ¬ r.line.TakesIn x) :
    Describes (rows ++ [r]) N := by
  refine ⟨fun x hx => ?_, fun x hx => ?_, h.linked⟩
  · obtain ⟨q, hq, htakes⟩ := hx
    rcases List.mem_append.1 hq with hq | hq
    · exact h.imported x ⟨q, hq, htakes⟩
    · rw [List.mem_singleton.1 hq] at htakes
      exact absurd htakes (himp x)
  · obtain ⟨haddress, hnot⟩ := h.address x fun q hq => hx q (List.mem_append_left _ hq)
    refine ⟨?_, hnot⟩
    rw [haddress, firstAddress_append, firstAddress_singleton, if_neg (by simp [hname]),
      Option.or_none]

/-- A name whose label is noted has not been carried or imported before. -/
theorem label (h : Describes rows N) (hname : r.line.name? = some x)
    (hfree : N x = none ∨ ∃ e, N x = some e ∧ e.linkage = some .exported ∧ e.address = none)
    {N' : NameTable} (hself : N' x = some ⟨some r.address, N.linkage? x⟩)
    (hothers : ∀ y, x ≠ y → N' y = N y) : Describes (rows ++ [r]) N' := by
  have hr : ∀ y, ¬ r.line.TakesIn y := fun y hy => by simp [Line.TakesIn, hname] at hy
  have hunimported : ¬ N.Imported x := by
    rcases hfree with hnone | ⟨e, he, hlinkage, -⟩
    · simp [NameTable.Imported, NameTable.linkage?, hnone]
    · simp [NameTable.Imported, NameTable.linkage?, he, hlinkage]
  have hunaddressed : N.address? x = none := by
    rcases hfree with hnone | ⟨e, he, -, haddress⟩
    · simp [NameTable.address?, hnone]
    · simp [NameTable.address?, he, haddress]
  have hold : ∀ y, (∃ q ∈ rows ++ [r], q.line.TakesIn y) → ∃ q ∈ rows, q.line.TakesIn y := by
    rintro y ⟨q, hq, hy⟩
    rcases List.mem_append.1 hq with hq | hq
    · exact ⟨q, hq, hy⟩
    · rw [List.mem_singleton.1 hq] at hy
      exact absurd hy (hr y)
  refine ⟨fun y hy => ?_, fun y hy => ?_, fun y e he hnone => ?_⟩
  · have himported := h.imported y (hold y hy)
    have hne : x ≠ y := by
      rintro rfl
      exact hunimported (by simp [NameTable.Imported, NameTable.linkage?, himported])
    rw [hothers y hne, himported]
  · obtain ⟨haddress, hnot⟩ := h.address y fun q hq => hy q (List.mem_append_left _ hq)
    rw [firstAddress_append, firstAddress_singleton, ← haddress]
    by_cases hxy : x = y
    · subst hxy
      rw [if_pos hname, hunaddressed]
      exact ⟨by simp [NameTable.address?, hself], by
        simpa [NameTable.Imported, NameTable.linkage?, hself] using hunimported⟩
    · rw [if_neg fun hy => hxy (Option.some.inj (hname.symm.trans hy)), Option.or_none]
      simpa [NameTable.address?, NameTable.Imported, NameTable.linkage?, hothers y hxy] using hnot
  · by_cases hxy : x = y
    · subst hxy
      rw [hself] at he
      cases he
      cases hnone
    · exact h.linked y e (by rw [← hothers y hxy, he]) hnone

/-- A label that is not noted was carried or imported before. -/
theorem clash (h : Describes rows N) (hname : r.line.name? = some x) {e : Entry (Option Int)}
    (he : N x = some e) (hclash : ¬ (e.linkage = some .exported ∧ e.address = none)) :
    Describes (rows ++ [r]) N := by
  have hr : ∀ y, ¬ r.line.TakesIn y := fun y hy => by simp [Line.TakesIn, hname] at hy
  refine ⟨fun y hy => ?_, fun y hy => ?_, h.linked⟩
  · obtain ⟨q, hq, htakes⟩ := hy
    rcases List.mem_append.1 hq with hq | hq
    · exact h.imported y ⟨q, hq, htakes⟩
    · rw [List.mem_singleton.1 hq] at htakes
      exact absurd htakes (hr y)
  · obtain ⟨haddress, hnot⟩ := h.address y fun q hq => hy q (List.mem_append_left _ hq)
    refine ⟨?_, hnot⟩
    rw [firstAddress_append, firstAddress_singleton, ← haddress]
    by_cases hxy : x = y
    · subst hxy
      have hsome : (N.address? x).isSome = true := by
        rw [NameTable.address?, he, Option.bind_some, Option.isSome_iff_ne_none]
        intro hnone
        cases hlinkage : e.linkage with
        | none => exact h.linked x e he hnone hlinkage
        | some linkage =>
          cases linkage with
          | exported => exact hclash ⟨hlinkage, hnone⟩
          | imported => exact hnot (by simp [NameTable.Imported, NameTable.linkage?, he, hlinkage])
      obtain ⟨b, hb⟩ := Option.isSome_iff_exists.1 hsome
      rw [hb, Option.some_or]
    · rw [if_neg fun hy => hxy (Option.some.inj (hname.symm.trans hy)), Option.or_none]

/-- An exported name keeps its address. -/
theorem exported (h : Describes rows N) (hlinkage : N.linkage? x = none) {N' : NameTable}
    (hself : N' x = some ⟨N.address? x, some .exported⟩) (hothers : ∀ y, x ≠ y → N' y = N y) :
    Describes rows N' := by
  refine ⟨fun y hy => ?_, fun y hy => ?_, fun y e he hnone => ?_⟩
  · have himported := h.imported y hy
    have hne : x ≠ y := by
      rintro rfl
      simp [NameTable.linkage?, himported] at hlinkage
    rw [hothers y hne, himported]
  · obtain ⟨haddress, hnot⟩ := h.address y hy
    by_cases hxy : x = y
    · subst hxy
      exact ⟨by simpa [NameTable.address?, hself] using haddress, by
        simp [NameTable.Imported, NameTable.linkage?, hself]⟩
    · simpa [NameTable.address?, NameTable.Imported, NameTable.linkage?, hothers y hxy]
        using ⟨haddress, hnot⟩
  · by_cases hxy : x = y
    · subst hxy
      rw [hself] at he
      cases he
      simp
    · exact h.linked y e (by rw [← hothers y hxy, he]) hnone

/-- An imported name loses its address. -/
theorem taken (h : Describes rows N) (hr : r.line.TakesIn x) {N' : NameTable}
    (hself : N' x = some ⟨none, some .imported⟩) (hothers : ∀ y, x ≠ y → N' y = N y) :
    Describes (rows ++ [r]) N' := by
  have honly : ∀ y, r.line.TakesIn y → x = y :=
    fun y hy => Option.some.inj (hr.1.2.symm.trans hy.1.2)
  refine ⟨fun y hy => ?_, fun y hy => ?_, fun y e he hnone => ?_⟩
  · by_cases hxy : x = y
    · rw [← hxy, hself]
    · obtain ⟨q, hq, htakes⟩ := hy
      rw [hothers y hxy]
      rcases List.mem_append.1 hq with hq | hq
      · exact h.imported y ⟨q, hq, htakes⟩
      · rw [List.mem_singleton.1 hq] at htakes
        exact absurd (honly y htakes) hxy
  · have hxy : x ≠ y := by
      rintro rfl
      exact hy r (by simp) hr
    obtain ⟨haddress, hnot⟩ := h.address y fun q hq => hy q (List.mem_append_left _ hq)
    rw [firstAddress_append, firstAddress_singleton, if_neg (by simp [hr.2]), Option.or_none,
      ← haddress]
    simpa [NameTable.address?, NameTable.Imported, NameTable.linkage?, hothers y hxy] using hnot
  · by_cases hxy : x = y
    · subst hxy
      rw [hself] at he
      cases he
      simp
    · exact h.linked y e (by rw [← hothers y hxy, he]) hnone

/-- The addresses of the names are those of the rows that first carry them, unless a row imports the
name. -/
theorem address?_eq_some_iff (h : Describes rows N) {a : Int} :
    N.address? x = some a ↔ (∀ r ∈ rows, ¬ r.line.TakesIn x) ∧ firstAddress rows x = some a := by
  by_cases htaken : ∃ r ∈ rows, r.line.TakesIn x
  · have hnot : ¬ ∀ r ∈ rows, ¬ r.line.TakesIn x := by simpa using htaken
    simp [NameTable.address?, h.imported x htaken, hnot]
  · have hnot : ∀ r ∈ rows, ¬ r.line.TakesIn x := by simpa using htaken
    rw [(h.address x hnot).1]
    exact (and_iff_right hnot).symm

end Describes

/-! ## Lines behind one another -/

namespace TwoPass.Sectioned

variable {table : OpTable} {use : NameUse} {done : List Line} {s s' : Scan} {n : Nat} {l : Line}
  {r : Row} {x : String}

/-- The names of a section before and after a row: if rows leave the former, these rows and the row
leave the latter. -/
def Adds (r : Row) (ns ns' : SectionNames (Option Int)) : Prop :=
  (ns.keys.Nodup → ns'.keys.Nodup) ∧ ∀ rows, Describes rows ns.get? →
    Describes (rows ++ [r]) ns'.get?

theorem adds_self {ns : SectionNames (Option Int)} (hname : r.line.name? = none)
    (himp : ∀ x, ¬ r.line.TakesIn x) :
    Adds r ns ns :=
  ⟨id, fun _ h => h.skip hname himp⟩

theorem get?_insert_of_ne (ns : SectionNames (Option Int)) (e : Entry (Option Int)) (y : String)
    (h : x ≠ y) :
    (ns.insert x e).get? y = ns.get? y := by
  rw [OrderedMap.get?_insert, if_neg h]

/-- A row adds to the names of the current section. -/
def Turns (r : Row) (s s' : Scan) : Prop :=
  ∃ ns ns', s.sections.get? s.current = some ns ∧ s'.sections = s.sections.insert s.current ns' ∧
    Adds r ns ns'

namespace Scan

theorem names_fails (s : Scan) :
    Fails (fun y => y = .missingKey s.current ∧ s.sections.get? s.current = none)
      (fun ns => s.sections.get? s.current = some ns) s.names := by
  unfold names
  cases hns : s.sections.get? s.current with
  | none => exact ⟨rfl, rfl⟩
  | some ns => exact fails_ok (by simp) rfl

/-- What noting a label and listing a line leave as it is. -/
structure Stays (s s' : Scan) : Prop where
  counter : s'.counter = s.counter
  current : s'.current = s.current
  ended : s'.ended = s.ended

theorem noteLabel_fails (hname : l.name? = some x) (n : Nat) :
    Fails (fun y => y = .missingKey s.current ∧ s.sections.get? s.current = none)
      (fun s' => Stays s s' ∧ Turns ⟨s.counter, l, s.current⟩ s s') (s.noteLabel n l) := by
  unfold noteLabel
  simp only [hname]
  refine s.names_fails.map fun ns hns => ?_
  have hset :
      ∀ e : Entry (Option Int),
        (ns.get? x = none ∨ ∃ e, ns.get? x = some e ∧ e.linkage = some .exported ∧
      e.address = none) → e = ⟨some s.counter, NameTable.linkage? ns.get? x⟩ →
      Stays s (s.setNames (ns.insert x e)) ∧
      Turns ⟨s.counter, l, s.current⟩ s (s.setNames (ns.insert x e)) := by
    rintro e hfree rfl
    refine ⟨⟨rfl, rfl, rfl⟩, ns, _, hns, rfl, fun h => OrderedMap.nodup_keys_insert h _ _,
      fun rows h => ?_⟩
    exact h.label hname hfree (by simp) fun y hy => get?_insert_of_ne _ _ y hy
  cases hx : ns.get? x with
  | none => exact hset _ (.inl hx) (by simp [NameTable.linkage?, hx])
  | some e =>
    dsimp only
    split
    · next he => exact hset _ (.inr ⟨e, hx, he⟩) (by simp [NameTable.linkage?, hx])
    · next he =>
      refine ⟨⟨rfl, rfl, rfl⟩, ns, ns, hns, (OrderedMap.insert_of_get? hns).symm, id,
        fun rows h => ?_⟩
      exact h.clash hname hx he

theorem exportLine_fails (hl : l.Exports x) (hname : l.name? = none) (n : Nat) :
    Fails (fun y => y = .missingKey s.current ∧ s.sections.get? s.current = none)
      (fun s' => Stays s s' ∧ Turns ⟨s.counter, l, s.current⟩ s s') (s.exportLine n l) := by
  have himp : ∀ y, ¬ l.TakesIn y := fun y hy => hl.not_imports hy.1
  unfold exportLine linkedName?
  simp only [hname, hl.2]
  refine (s.list l).names_fails.map fun ns hns => ?_
  change s.sections.get? s.current = some ns at hns
  have hset : ∀ e : Entry (Option Int), NameTable.linkage? ns.get? x = none →
      e = ⟨NameTable.address? ns.get? x, some .exported⟩ →
      Stays s ((s.list l).setNames (ns.insert x e)) ∧
        Turns ⟨s.counter, l, s.current⟩ s ((s.list l).setNames (ns.insert x e)) := by
    rintro e hfree rfl
    refine ⟨⟨rfl, rfl, rfl⟩, ns, _, hns, rfl, fun h => OrderedMap.nodup_keys_insert h _ _,
      fun rows h => ?_⟩
    exact (h.exported hfree (by simp) fun y hy => get?_insert_of_ne _ _ y hy).skip hname himp
  cases hx : ns.get? x with
  | none => exact hset _ (by simp [NameTable.linkage?, hx]) (by simp [NameTable.address?, hx])
  | some e =>
    dsimp only
    split
    · next he =>
      exact hset _ (by simp [NameTable.linkage?, hx, he]) (by simp [NameTable.address?, hx])
    · exact ⟨⟨rfl, rfl, rfl⟩, ns, ns, hns, (OrderedMap.insert_of_get? hns).symm,
        adds_self hname himp⟩

theorem importLine_fails (hl : l.TakesIn x) (n : Nat) :
    Fails (fun y => y = .missingKey s.current ∧ s.sections.get? s.current = none)
      (fun s' => Stays s s' ∧ Turns ⟨s.counter, l, s.current⟩ s s') (s.importLine n l) := by
  unfold importLine linkedName?
  simp only [hl.2, hl.1.2]
  refine (s.list l).names_fails.map fun ns hns => ?_
  change s.sections.get? s.current = some ns at hns
  refine ⟨⟨rfl, rfl, rfl⟩, ns, _, hns, rfl, fun h => OrderedMap.nodup_keys_insert h _ _,
    fun rows h => ?_⟩
  exact h.taken hl (by simp) fun y hy => get?_insert_of_ne _ _ y hy

/-- What a line that begins no section leaves of the frame. -/
structure Passes (table : OpTable) (l : Line) (s s' : Scan) : Prop where
  counter : s'.counter = s.counter + l.extent .sectioned table
  current : s'.current = s.current
  ended : s'.ended = true ↔ l.mnemonic = "END"

theorem passes_of_stays (hs : Stays s s') (he : s.ended = false)
    (hextent : l.extent .sectioned table = 0) (hend : l.mnemonic ≠ "END") :
    Passes table l s s' := by
  refine ⟨by rw [hs.counter, hextent]; omega, hs.current, ?_⟩
  simp [hs.ended, he, hend]

theorem bodyLine_fails (hlink : ∀ x, l.Declares x → l.name? ≠ none) (he : s.ended = false)
    (hl : l.Sound .sectioned table) :
    Fails (fun y => y = .notHexadecimal "" ∧ l.Unvalued .sectioned table)
      (fun s' => Passes table l s s' ∧ s'.sections = s.sections)
      (s.bodyLine use (Statement.ofMnemonic .sectioned table l.mnemonic) n l) := by
  have hvalued : (∀ op, Statement.ofMnemonic .sectioned table l.mnemonic ≠ .command op) →
      ∀ y : Fault, ¬ (y = .notHexadecimal "" ∧ l.Unvalued .sectioned table) := by
    rintro hnot y ⟨-, h⟩
    obtain ⟨op, hop⟩ := h.command_eq
    exact hnot op hop
  have hfinish := Statement.ofMnemonic_eq_finish_iff .sectioned table l.mnemonic
  have hbare : (∀ x, onlyName? l.operands = some x → l.Declares x) → linkedName? l = none := by
    refine fun hdeclares => Option.eq_none_iff_forall_ne_some.2 fun x hx => ?_
    obtain ⟨hname, hops⟩ := linkedName?_eq_some_iff.1 hx
    exact hlink x (hdeclares x hops) hname
  unfold bodyLine
  split
  · next hst =>
    refine fails_ok (hvalued (by simp [hst]))
      ⟨⟨?_, rfl, by simp [endLine, list, ← hfinish, hst]⟩, rfl⟩
    simp [endLine, list, report, Line.extent, hst]
  · next kind hst =>
    have hnot := hvalued (by simp [hst])
    have hne : l.mnemonic ≠ "END" := fun h => by simp [hfinish.2 h] at hst
    unfold storageLine
    split
    · next p hal =>
      refine fails_ok hnot ⟨⟨?_, rfl, by simp [list, report, he, hne]⟩, rfl⟩
      simp [list, report, extent_of_storage hst, Storage.extent_of_allot_error hal]
    · next al hal =>
      refine ((hl.worded_allotted hst hal).congr fun y => ⟨False.elim, hnot y⟩).map fun ps _ => ?_
      refine ⟨⟨?_, rfl, by simp [list, report, moveTo, he, hne]⟩, rfl⟩
      simp [list, report, moveTo, extent_of_storage hst, (Storage.allot_eq hal).1]
  · next hst =>
    have hexport := (Statement.ofMnemonic_eq_exportName_iff table _).1 hst
    have hlinked : linkedName? l = none := hbare fun x hx => .inl ⟨hexport, hx⟩
    unfold exportLine
    simp only [hlinked]
    refine fails_ok (hvalued (by simp [hst]))
      ⟨passes_of_stays ⟨rfl, rfl, rfl⟩ he ?_ (by simp [hexport]), rfl⟩
    simp [Line.extent, hst]
  · next hst =>
    have himport := (Statement.ofMnemonic_eq_importName_iff table _).1 hst
    have hlinked : linkedName? l = none := hbare fun x hx => .inr ⟨himport, hx⟩
    unfold importLine
    simp only [hlinked]
    refine fails_ok (hvalued (by simp [hst]))
      ⟨passes_of_stays ⟨rfl, rfl, rfl⟩ he ?_ (by simp [himport]), rfl⟩
    simp [Line.extent, hst]
  · next op hst =>
    have hne : l.mnemonic ≠ "END" := fun h => by simp [hfinish.2 h] at hst
    refine (hl.commandProblems_fails hst s.counter).map fun ps _ =>
      ⟨⟨?_, rfl, by simp [list, report, moveTo, he, hne]⟩, rfl⟩
    simp [list, report, moveTo, extent_of_command hst]
  · next hend hstorage hexport himport hcommand =>
    refine fails_ok (hvalued hcommand)
      ⟨passes_of_stays ⟨rfl, rfl, rfl⟩ he ?_ fun h => hend (hfinish.2 h), rfl⟩
    unfold Line.extent
    split
    · next kind hst => exact absurd hst (hstorage kind)
    · next op hst => exact absurd hst (hcommand op)
    · rfl

theorem bodyLine_fails_of_declares (hx : l.Declares x) (hname : l.name? = none)
    (he : s.ended = false) :
    Fails (fun y => y = .missingKey s.current ∧ s.sections.get? s.current = none)
      (fun s' => Passes table l s s' ∧ Turns ⟨s.counter, l, s.current⟩ s s')
      (s.bodyLine use (Statement.ofMnemonic .sectioned table l.mnemonic) n l) := by
  rcases hx with hx | hx
  · have hst := (Statement.ofMnemonic_eq_exportName_iff table _).2 hx.1
    have hextent : l.extent .sectioned table = 0 := by simp [Line.extent, hst]
    rw [hst]
    exact (exportLine_fails hx hname n).imp fun s' h =>
      ⟨passes_of_stays h.1 he hextent (by simp [hx.1]), h.2⟩
  · have hst := (Statement.ofMnemonic_eq_importName_iff table _).2 hx.1
    have hextent : l.extent .sectioned table = 0 := by simp [Line.extent, hst]
    rw [hst]
    exact (importLine_fails ⟨hx, hname⟩ n).imp fun s' h =>
      ⟨passes_of_stays h.1 he hextent (by simp [hx.1]), h.2⟩

theorem expectStarted_eq (s : Scan) (n : Nat) : ∃ found, s.expectStarted n = { s with found } := by
  unfold expectStarted
  split
  · exact ⟨s.found, rfl⟩
  · exact ⟨_, rfl⟩

theorem line_fails (hopen : ¬ l.Opens) (he : s.ended = false) (hl : l.Sound .sectioned table) :
    Fails (fun y => y = .notHexadecimal "" ∧ l.Unvalued .sectioned table ∨
        y = .missingKey s.current ∧ s.sections.get? s.current = none ∧ l.Names)
      (fun s' => Passes table l s s' ∧
        (Turns ⟨s.counter, l, s.current⟩ s s' ∨ s'.sections = s.sections ∧ ¬ l.Names))
      (s.line table use n l) := by
  obtain ⟨hstart, hsection⟩ := not_or.1 hopen
  obtain ⟨found, hfound⟩ := s.expectStarted_eq n
  have hbind : s.line table use n l = ((s.expectStarted n).noteLabel n l).bind fun s' =>
      s'.bodyLine use (Statement.ofMnemonic .sectioned table l.mnemonic) n l := by
    rw [line_eq hstart hsection]
    cases (s.expectStarted n).noteLabel n l <;> rfl
  rw [hbind, hfound]
  cases hname : l.name? with
  | some x =>
    have hnames : l.Names := ⟨x, .inl hname⟩
    refine ((noteLabel_fails (s := { s with found }) hname n).bind fun s₁ ⟨hs, ht⟩ =>
      (bodyLine_fails (fun y _ => by simp [hname]) (hs.ended.trans he) hl).imp
        (R := fun s' => Passes table l s s' ∧
        (Turns ⟨s.counter, l, s.current⟩ s s' ∨ s'.sections = s.sections ∧ ¬ l.Names))
          fun s' ⟨hp, hsame⟩ => ?_).congr fun y => ?_
    · refine ⟨⟨by rw [hp.counter, hs.counter], hp.current.trans hs.current, hp.ended⟩, .inl ?_⟩
      obtain ⟨ns, ns', hns, hinsert, hadds⟩ := ht
      exact ⟨ns, ns', hns, hsame.trans hinsert, hadds⟩
    · simp [hnames, or_comm]
  | none =>
    have hskip : ∀ s : Scan, s.noteLabel n l = .ok s := fun s => by simp only [noteLabel, hname]
    rw [hskip]
    change Fails _ _ (Scan.bodyLine _ _ _ _ _)
    by_cases hlink : ∃ x, l.Declares x
    · obtain ⟨x, hx⟩ := hlink
      have hnames : l.Names := ⟨x, .inr hx⟩
      have hunvalued : ¬ l.Unvalued .sectioned table := by
        intro h
        refine h.command ?_
        rcases hx with hx | hx <;> rw [hx.1] <;> decide
      refine ((bodyLine_fails_of_declares (s := { s with found }) hx hname he).imp fun s' h =>
        ?_).congr fun y => ?_
      · exact ⟨⟨h.1.counter, h.1.current, h.1.ended⟩, .inl h.2⟩
      · simp [hnames, hunvalued]
    · have hnames : ¬ l.Names := by
        rintro ⟨x, hx | hx⟩
        · simp [hname] at hx
        · exact hlink ⟨x, hx⟩
      refine ((bodyLine_fails (s := { s with found }) (fun x hx => absurd ⟨x, hx⟩ hlink) he hl).imp
        fun s' h => ?_).congr fun y => ?_
      · exact ⟨⟨h.1.counter, h.1.current, h.1.ended⟩, .inr ⟨h.2, hnames⟩⟩
      · simp [hnames]

end Scan

/-- The label of the last span; before the first one it is empty. -/
def labelBehind (sps : List Span) : Option String := (sps.getLast?.map (·.label)).getD (some "")

/-- The scan behind lines: the table of a section has the names of the last span with its label. -/
structure Kept (table : OpTable) (done : List Line) (s : Scan) : Prop where
  counter : s.counter = counterBehind table 0 done
  current : s.current = labelBehind (spans table 0 done)
  keys : s.sections.keys.Nodup
  tables : ∀ k, Option.Rel (fun ns sp => ns.keys.Nodup ∧ Describes sp.rows ns.get?)
    (s.sections.get? k) (spanOf k (spans table 0 done))

namespace Kept

theorem start (table : OpTable) : Kept table [] Scan.start where
  counter := rfl
  current := rfl
  keys := List.nodup_nil
  tables _ := .none

theorem names_eq_none_iff (h : Kept table done s) : s.sections.get? s.current = none ↔
    ∀ l ∈ done, ¬ l.Opens := by
  have htable := h.tables s.current
  rw [← spans_eq_nil_iff table 0]
  rcases List.eq_nil_or_concat (spans table 0 done) with hnil | ⟨sps, sp, hsps⟩
  · rw [hnil] at htable ⊢
    simp only [iff_true]
    cases hns : s.sections.get? s.current with
    | none => rfl
    | some ns =>
      rw [hns] at htable
      cases htable
  · have hcurrent : s.current = sp.label := by rw [h.current, hsps, labelBehind]; simp
    rw [hsps, List.concat_eq_append, spanOf_concat, if_pos hcurrent.symm] at htable
    rw [hsps]
    refine iff_of_false (fun hns => ?_) (by simp)
    rw [hns] at htable
    cases htable

/-- A directive begins a section without names. -/
theorem opened (h : Kept table done s) (hl : l.Opens)
    (hcounter : s'.counter = l.counterBehind table s.counter) (hcurrent : s'.current = l.label)
    (hsections : s'.sections = s.sections.insert l.label ∅) :
    Kept table (done ++ [l]) s' where
  counter := by rw [hcounter, h.counter, counterBehind_concat]
  current := by rw [hcurrent, spans_concat_of_opens hl, labelBehind]; simp
  keys := by
    rw [hsections]
    exact OrderedMap.nodup_keys_insert h.keys _ _
  tables k := by
    rw [hsections, OrderedMap.get?_insert, spans_concat_of_opens hl, spanOf_concat]
    split
    · exact .some ⟨List.nodup_nil, .nil⟩
    · exact h.tables k

/-- Any other line adds to the names of the open section, if there is any. -/
theorem passed (h : Kept table done s) (hl : ¬ l.Opens) (hp : Scan.Passes table l s s')
    (ht : Turns ⟨s.counter, l, s.current⟩ s s' ∨ s'.sections = s.sections ∧ ¬ l.Names) :
    Kept table (done ++ [l]) s' := by
  have hcounter : s'.counter = counterBehind table 0 (done ++ [l]) := by
    rw [hp.counter, h.counter, counterBehind_concat, Line.counterBehind_of_not_opens hl]
  have hempty := h.names_eq_none_iff
  rw [← spans_eq_nil_iff table 0] at hempty
  obtain ⟨hnil, hnil'⟩ | ⟨sps, sp, hsps, hsps'⟩ := spans_concat table hl 0 done
  · have hnone := hempty.2 hnil
    have hsame : s'.sections = s.sections := by
      obtain ⟨ns, -, hns, -⟩ | ⟨hsame, -⟩ := ht
      · rw [hnone] at hns
        cases hns
      · exact hsame
    refine ⟨hcounter, ?_, hsame ▸ h.keys, fun k => ?_⟩
    · rw [hp.current, h.current, hnil, hnil']
    · rw [hsame, hnil', ← hnil]
      exact h.tables k
  · have hcurrent : s.current = sp.label := by rw [h.current, hsps, labelBehind]; simp
    have hopen := h.tables sp.label
    rw [hsps, spanOf_concat, if_pos rfl, ← hcurrent] at hopen
    obtain ⟨ns, hns⟩ : ∃ ns, s.sections.get? s.current = some ns :=
      Option.ne_none_iff_exists'.1 fun hnone => by simp [hempty.1 hnone] at hsps
    rw [hns] at hopen
    obtain ⟨hnodup, hdescribes⟩ : ns.keys.Nodup ∧ Describes sp.rows ns.get? := by
      cases hopen with
      | some hboth => exact hboth
    have hturns : Turns ⟨s.counter, l, s.current⟩ s s' := by
      obtain ht | ⟨hsame, hnot⟩ := ht
      · exact ht
      · have hname : l.name? = none := by
          cases hx : l.name? with
          | none => rfl
          | some x => exact absurd ⟨x, .inl hx⟩ hnot
        exact ⟨ns, ns, hns, hsame.trans (OrderedMap.insert_of_get? hns).symm,
          adds_self hname fun x hx => hnot ⟨x, .inr (.inr hx.1)⟩⟩
    obtain ⟨ns₀, ns', hns₀, hinsert, hkeys, hadds⟩ := hturns
    obtain rfl : ns = ns₀ := Option.some.inj (hns.symm.trans hns₀)
    refine ⟨hcounter, ?_, ?_, fun k => ?_⟩
    · rw [hp.current, hcurrent, hsps', labelBehind]
      simp
    · rw [hinsert]
      exact OrderedMap.nodup_keys_insert h.keys _ _
    · rw [hinsert, OrderedMap.get?_insert, hsps', spanOf_concat, hcurrent]
      split
      · have hrows := hadds sp.rows hdescribes
        rw [h.counter, hcurrent] at hrows
        exact .some ⟨hkeys hnodup, hrows⟩
      · next hk =>
        have htable := h.tables k
        rwa [hsps, spanOf_concat, if_neg hk] at htable

end Kept

/-- A line of a sectioned program fails if it is a command without value, or if it carries or
declares a name before any section has begun. -/
theorem halting (table : OpTable) (use : NameUse) :
    Halting (Scan.line table use) Scan.ended (Line.Sound .sectioned table) (Kept table)
      (fun pre l x => x = .notHexadecimal "" ∧ l.Unvalued .sectioned table ∨
        x = .missingKey (some "") ∧ (∀ k ∈ pre, ¬ k.Opens) ∧ ¬ l.Opens ∧ l.Names) where
  step {pre s l} n hs he hl := by
    by_cases hopen : l.Opens
    · have hcommand : ¬ l.Unvalued .sectioned table := by
        intro h
        refine h.command ?_
        rcases hopen with hopen | hopen <;> rw [hopen] <;> decide
      have hnot : ∀ x : Fault, ¬ (x = .notHexadecimal "" ∧ l.Unvalued .sectioned table ∨
          x = .missingKey (some "") ∧ (∀ k ∈ pre, ¬ k.Opens) ∧ ¬ l.Opens ∧ l.Names) := by
        simp [hcommand, hopen]
      by_cases hstart : l.mnemonic = "START"
      · rw [Scan.line, (Statement.ofMnemonic_eq_start_iff _ _ _).2 hstart]
        refine fails_ok hnot ⟨hs.opened hopen ?_ rfl rfl, ?_⟩
        · rw [Line.counterBehind, if_pos hstart]
          rfl
        · simp [Scan.startLine, Scan.begin, Scan.list, Scan.setNames, Scan.moveTo, Scan.report,
            he, hstart]
      · have hsection := hopen.resolve_left hstart
        obtain ⟨found, hfound⟩ := s.expectStarted_eq n
        rw [Scan.line, (Statement.ofMnemonic_eq_newSection_iff _ _).2 hsection, hfound]
        refine fails_ok hnot ⟨hs.opened hopen ?_ rfl rfl, ?_⟩
        · rw [Line.counterBehind, if_neg hstart, if_pos hsection]
          rfl
        · simp [Scan.sectionLine, Scan.begin, Scan.list, Scan.setNames, Scan.moveTo, Scan.report,
            he, hsection]
    · refine ((Scan.line_fails hopen he hl).imp fun s' h =>
        ⟨hs.passed hopen h.1 h.2, h.1.ended⟩).congr fun x => ?_
      refine or_congr_right ⟨?_, ?_⟩
      · rintro ⟨rfl, hnone, hnames⟩
        have hpre := hs.names_eq_none_iff.1 hnone
        refine ⟨?_, hpre, hopen, hnames⟩
        rw [hs.current, (spans_eq_nil_iff _ _).2 hpre, labelBehind]
        rfl
      · rintro ⟨rfl, hpre, -, hnames⟩
        refine ⟨?_, hs.names_eq_none_iff.2 hpre, hnames⟩
        rw [hs.current, (spans_eq_nil_iff _ _).2 hpre, labelBehind]
        rfl

/-- A line carries or declares a name before any section has begun. -/
def TooEarly (program : List Line) : Prop :=
  ∃ pre l post, upToEnd program = pre ++ l :: post ∧ (∀ k ∈ pre, ¬ k.Opens) ∧ ¬ l.Opens ∧ l.Names

/-- In the last span with some label a name that no line of it imports has an address of too many
digits. -/
def LongAddress (table : OpTable) (program : List Line) : Prop :=
  ∃ sp, spanOf sp.label (spans table 0 (upToEnd program)) = some sp ∧
    ∃ x a, (∀ r ∈ sp.rows, ¬ r.line.TakesIn x) ∧ firstAddress sp.rows x = some a ∧
    10 ^ Text.decimalLimit ≤ a.natAbs

theorem label_of_spanOf {k : Option String} {sps : List Span} {sp : Span}
    (h : spanOf k sps = some sp) : sp.label = k := by
  simpa using List.find?_some h

theorem Kept.addressesWritable_iff {program : List Line} (h : Kept table (upToEnd program) s) :
    s.addressesWritable = true ↔ ¬ LongAddress table program := by
  have hrel := h.tables
  constructor
  · rintro hall ⟨sp, hsp, x, a, hnot, hfirst, hlong⟩
    have hsection := hrel sp.label
    rw [hsp] at hsection
    cases hns : s.sections.get? sp.label with
    | none =>
      rw [hns] at hsection
      cases hsection
    | some ns =>
      rw [hns] at hsection
      cases hsection with
      | some hboth =>
        obtain ⟨e, he, haddress⟩ :=
          Option.bind_eq_some_iff.1 (hboth.2.address?_eq_some_iff.2 ⟨hnot, hfirst⟩)
        have hnames := List.all_eq_true.1 hall _ (OrderedMap.mem_entries_of_get? hns)
        have hentry := List.all_eq_true.1 hnames _ (OrderedMap.mem_entries_of_get? he)
        simp only [haddress, Option.all_some, hasDecimal_iff] at hentry
        omega
  · intro hshort
    refine List.all_eq_true.2 fun sec hsec => List.all_eq_true.2 fun entry hentry => ?_
    obtain ⟨k, ns⟩ := sec
    obtain ⟨x, e⟩ := entry
    have hsection := hrel k
    rw [OrderedMap.get?_of_mem_entries h.keys hsec] at hsection
    cases hsp : spanOf k (spans table 0 (upToEnd program)) with
    | none =>
      rw [hsp] at hsection
      cases hsection
    | some sp =>
      rw [hsp] at hsection
      cases hsection with
      | some hboth =>
        have he := OrderedMap.get?_of_mem_entries hboth.1 hentry
        cases haddress : e.address with
        | none => rfl
        | some a =>
          obtain ⟨hnot, hfirst⟩ :=
            hboth.2.address?_eq_some_iff.1 (by rw [NameTable.address?, he]; exact haddress)
          rw [Option.all_some, hasDecimal_iff]
          by_contra hlong
          refine hshort ⟨sp, ?_, x, a, hnot, hfirst, by omega⟩
          rwa [label_of_spanOf hsp]

/-- The first pass over a sectioned program fails if and only if a line of it does, or an address is
too long to be put down. -/
theorem list_fails (table : OpTable) (use : NameUse) {program : List Line}
    (h : ∀ l ∈ upToEnd program, l.Sound .sectioned table) :
    Fails (fun x => x = .notHexadecimal "" ∧ (∃ l ∈ upToEnd program, l.Unvalued .sectioned table) ∨
        x = .missingKey (some "") ∧ TooEarly program ∨ x = .noDecimal ∧ LongAddress table program)
      (fun _ => True) (list table use program) := by
  have hbind :
      list table use program = (runLines (Scan.line table use) Scan.ended Scan.start 1 program).bind
        fun s =>
      if s.addressesWritable then .ok s.listing else .error .noDecimal := by
    rw [list, Scan.lines_eq]
    cases runLines (Scan.line table use) Scan.ended Scan.start 1 program <;> rfl
  rw [hbind]
  refine (((halting table use).run [] (.start table) rfl 1 h).bind
    (G := fun x => x = .noDecimal ∧ LongAddress table program) fun s hs => ?_).congr fun x => ?_
  · split
    · next hall => exact fails_ok (fun x hx => hs.addressesWritable_iff.1 hall hx.2) trivial
    · next hall => exact ⟨rfl, not_not.1 (mt hs.addressesWritable_iff.2 hall)⟩
  · rw [← or_assoc]
    refine or_congr_left ⟨?_, ?_⟩
    · rintro ⟨pre, l, post, hcut, ⟨hx, hl⟩ | ⟨hx, hearly⟩⟩
      · exact .inl ⟨hx, l, by simp [hcut], hl⟩
      · exact .inr ⟨hx, pre, l, post, hcut, hearly⟩
    · rintro (⟨hx, l, hl, hvalue⟩ | ⟨hx, pre, l, post, hcut, hearly⟩)
      · obtain ⟨pre, post, hcut⟩ := List.append_of_mem hl
        exact ⟨pre, l, post, hcut, .inl ⟨hx, hvalue⟩⟩
      · exact ⟨pre, l, post, hcut, .inr ⟨hx, hearly⟩⟩

end TwoPass.Sectioned

/-! ## Programs of all layouts -/

open TwoPass.Sectioned (TooEarly LongAddress)

theorem length_charDigits_le (s : String) : (charDigits s).length ≤ 6 * s.toList.length := by
  rw [charDigits]
  induction s.toList with
  | nil => rfl
  | cons c cs ih =>
    have hplaces :=
      (Text.length_digits_le_iff .lower c.toNat (k := 6) (by decide)).2 (toNat_char_lt c)
    rw [List.flatMap_cons, List.length_append, Text.length_padLeft, List.length_cons]
    omega

/-- A literal of three thousand characters has a value that can be told. -/
theorem hasDecimal_of_short {ds : List Char} (hlength : ds.length ≤ 5 * 600) {v : Int}
    (h : hexValue ds = .ok v) :
    Text.hasDecimal v = true := by
  rw [hasDecimal_iff]
  have hlt : ∀ k m, ds.length ≤ 5 * k → 7 * k ≤ m → v.natAbs < 10 ^ m := fun k m hk hm =>
    calc v.natAbs < 16 ^ ds.length := natAbs_lt_of_hexValue h
      _ ≤ 16 ^ (5 * k) := Nat.pow_le_pow_right (by decide) hk
      _ = (16 ^ 5) ^ k := Nat.pow_mul ..
      _ ≤ (10 ^ 7) ^ k := Nat.pow_le_pow_left (by decide) k
      _ = 10 ^ (7 * k) := (Nat.pow_mul ..).symm
      _ ≤ 10 ^ m := Nat.pow_le_pow_right (by decide) hm
  exact hlt 600 _ hlength (by decide)

/-- The numbers of a line have decimal forms, and its strings are not long. -/
structure Line.Moderate (l : Line) : Prop where
  numbers : ∀ v, .number v ∈ l.operands → v.natAbs < 10 ^ Text.decimalLimit
  chars : ∀ s, .chars s ∈ l.operands → s.toList.length ≤ 500
  digits : ∀ s, .hex s ∈ l.operands → s.toList.length ≤ 500

theorem Line.Moderate.tellable {l : Line} (h : l.Moderate) {layout : Layout} {table : OpTable}
    (htable : ∀ m op, table.get? m = some op → op.size.natAbs < 10 ^ Text.decimalLimit) :
    l.Tellable layout table := by
  have hnumber : ∀ v, .number v ∈ l.operands → Text.hasDecimal v = true :=
    fun v hv => hasDecimal_iff.2 (h.numbers v hv)
  unfold Line.Tellable
  split
  · exact fun _ => hnumber
  · next op hst =>
    refine ⟨hasDecimal_iff.2 (htable _ op (Statement.ofMnemonic_eq_command_iff.1 hst).2),
      fun o ho => ?_⟩
    cases o with
    | direct name => rfl
    | relative name => rfl
    | number v => exact hnumber v ho
    | register i => exact hasDecimal_constant_register i
    | chars s =>
      refine hasDecimal_constant_of_string rfl fun v hv => hasDecimal_of_short ?_ hv
      have hlength := length_charDigits_le s
      have hs := h.chars s ho
      omega
    | hex s =>
      refine hasDecimal_constant_of_string rfl fun v hv => hasDecimal_of_short ?_ hv
      have hs := h.digits s ho
      omega
  · trivial

theorem mem_of_mem_upToEnd {l : Line} {ls : List Line} (h : l ∈ upToEnd ls) : l ∈ ls := by
  induction ls with
  | nil => exact h
  | cons k ls ih =>
    rw [upToEnd] at h
    split at h
    · rw [List.mem_singleton.1 h]
      exact List.mem_cons_self
    · rcases List.mem_cons.1 h with rfl | h
      · exact List.mem_cons_self
      · exact List.mem_cons_of_mem _ (ih h)

theorem listProgram_fails (layout : Layout) (table : OpTable) (use : NameUse) {program : List Line}
    (h : ∀ l ∈ upToEnd program, l.Sound layout table) :
    Fails (fun x => x = .notHexadecimal "" ∧ (∃ l ∈ upToEnd program, l.Unvalued layout table) ∨
        layout = .sectioned ∧
        (x = .missingKey (some "") ∧ TooEarly program ∨ x = .noDecimal ∧ LongAddress table program))
      (fun _ => True) (listProgram ⟨layout, .twoPass⟩ table use program) := by
  cases layout with
  | sectioned =>
    refine (TwoPass.Sectioned.list_fails table use h).congr fun x => ?_
    simp
  | absolute =>
    refine (TwoPass.Flat.list_fails ⟨.absolute, .twoPass⟩ table use h).congr fun x => ?_
    simp
  | relocatable =>
    refine (TwoPass.Flat.list_fails ⟨.relocatable, .twoPass⟩ table use h).congr fun x => ?_
    simp

/-- On which programs the first pass fails, and in what: a command with an address has the empty
string for its operand, or a sectioned program has a name before any section or an address that is
too long to be put down. -/
theorem listing_fails_iff {text : String} {source : Source} (layout : Layout)
    (hparse : Source.parse ⟨layout, .twoPass⟩ text = .ok source)
    (hlines : ∀ l ∈ source.lines, l.Moderate) (table : OpTable)
    (htable : ∀ m op, table.get? m = some op → op.size.natAbs < 10 ^ Text.decimalLimit) (i : Int) :
    ((∃ x, listProgram ⟨layout, .twoPass⟩ table (.ofIndex i) source.lines = .error x) ↔
      (∃ l ∈ upToEnd source.lines, l.Unvalued layout table) ∨
        layout = .sectioned ∧ (TooEarly source.lines ∨ LongAddress table source.lines)) ∧
    ∀ x, listProgram ⟨layout, .twoPass⟩ table (.ofIndex i) source.lines = .error x →
      x = .notHexadecimal "" ∧ (∃ l ∈ upToEnd source.lines, l.Unvalued layout table) ∨
        layout = .sectioned ∧ (x = .missingKey (some "") ∧ TooEarly source.lines ∨
          x = .noDecimal ∧ LongAddress table source.lines) := by
  have hsound : ∀ l ∈ upToEnd source.lines, l.Sound layout table := by
    intro l hl
    have hmem := mem_of_mem_upToEnd hl
    exact ⟨Source.wellWritten_of_parse hparse l hmem, (hlines l hmem).tellable htable⟩
  obtain ⟨hfails, hkinds⟩ := (listProgram_fails layout table (.ofIndex i) hsound).error_iff
  refine ⟨hfails.trans ⟨?_, ?_⟩, hkinds⟩
  · rintro ⟨x, ⟨-, hvalue⟩ | ⟨hlayout, ⟨-, hearly⟩ | ⟨-, hlong⟩⟩⟩
    · exact .inl hvalue
    · exact .inr ⟨hlayout, .inl hearly⟩
    · exact .inr ⟨hlayout, .inr hlong⟩
  · rintro (hvalue | ⟨hlayout, hearly | hlong⟩)
    · exact ⟨_, .inl ⟨rfl, hvalue⟩⟩
    · exact ⟨_, .inr ⟨hlayout, .inl ⟨rfl, hearly⟩⟩⟩
    · exact ⟨_, .inr ⟨hlayout, .inr ⟨rfl, hlong⟩⟩⟩

/-- A command that takes more space than any memory has. -/
def vastTable : OpTable := .ofTriples [("NOP", 1, 10 ^ 4300 - 1)]

/-- The name stands behind two of these commands. -/
def distantName : List Line :=
  [⟨some "P", ⟨"START", []⟩⟩, ⟨none, ⟨"NOP", []⟩⟩, ⟨none, ⟨"NOP", []⟩⟩, ⟨some "X", ⟨"END", []⟩⟩]

theorem longAddress_distantName : LongAddress vastTable distantName :=
  ⟨⟨some "P", [⟨0, ⟨none, ⟨"NOP", []⟩⟩, some "P"⟩, ⟨10 ^ 4300 - 1, ⟨none, ⟨"NOP", []⟩⟩, some "P"⟩,
      ⟨2 * (10 ^ 4300 - 1), ⟨some "X", ⟨"END", []⟩⟩, some "P"⟩]⟩,
    by decide +kernel, "X", 2 * (10 ^ 4300 - 1), by decide +kernel, by decide +kernel, by
      decide +kernel⟩

/-- A program without numbers or strings on which the first pass fails. -/
theorem distantName_fails :
    Source.parse ⟨.sectioned, .twoPass⟩ "P: START\n NOP\n NOP\nX: END\n" = .ok ⟨distantName, []⟩ ∧
    (∀ l ∈ distantName, l.Moderate) ∧
    (∀ m op, vastTable.get? m = some op → op.size.natAbs < 10 ^ Text.decimalLimit) ∧
    ∃ x, listProgram ⟨.sectioned, .twoPass⟩ vastTable (.ofIndex 2) distantName = .error x := by
  have hparse :
      Source.parse ⟨.sectioned, .twoPass⟩ "P: START\n NOP\n NOP\nX: END\n" =
        .ok ⟨distantName, []⟩ := by
    decide +kernel
  have hlines : ∀ l ∈ distantName, l.Moderate := by
    intro l hl
    have hnone : ∀ l ∈ distantName, l.operands = [] := by decide
    constructor <;> simp [hnone l hl]
  have htable : ∀ m op, vastTable.get? m = some op → op.size.natAbs < 10 ^ Text.decimalLimit := by
    intro m op hop
    have hall : ∀ e ∈ vastTable.entries, e.2.size.natAbs < 10 ^ Text.decimalLimit := by
      decide +kernel
    exact hall _ (OrderedMap.mem_entries_of_get? hop)
  exact ⟨hparse, hlines, htable, (listing_fails_iff .sectioned hparse hlines vastTable htable 2).1.2
    (.inr ⟨rfl, .inr longAddress_distantName⟩)⟩

end Assembler
