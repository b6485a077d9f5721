import Assembler.Proofs.BrokenRuns

/-! # Flat runs that break off

In flat programs a name without an address waits at the last record, whether or not the line that
names it has left one.  A line that carries the name is then expected to find a record there that
can be filled.  `Awaiting` is what the tables of the pass hold.  In absolute programs any record
will do, so that only a program without records can break off. -/

namespace Assembler.OnePass
open Assembler
set_option autoImplicit false

variable {layout : Layout} {table : OpTable} {names : OrderedMap String (Option Int)}
  {waiting : Waiting} {noted pre : List Line} {l : Line} {x : String}

/-! ## Names that are waited for -/

/-- The names that a line of a flat program waits for if they have no addresses. -/
def awaited (layout : Layout) (table : OpTable) (l : Line) : List String :=
  match Statement.ofMnemonic layout table l.mnemonic with
  | .start | .finish => []
  | _ => l.operands.filterMap (awaitedName? layout)

def Carried (ls : List Line) (x : String) : Prop :=
  ∃ q ∈ ls, q.mnemonic ≠ "START" ∧ q.name? = some x

/-- A line waits for a name at a place, which is that of the last record left up to this line. -/
def AwaitedAt (layout : Layout) (table : OpTable) (x : String) (pre : List Line)
    (place : Option Nat) : Prop :=
  ∃ before q after, pre = before ++ q :: after ∧ x ∈ awaited layout table q ∧
    place = lastPlace (recordLines layout table (before ++ [q])).length

/-- The tables when the labels of some lines are noted and those of the lines `pre` are waited
for. -/
structure Awaiting (layout : Layout) (table : OpTable) (noted pre : List Line)
    (names : OrderedMap String (Option Int)) (waiting : Waiting) : Prop where
  new : ∀ x, ¬ Carried noted x → isOpen names x = true ∧
    ∀ place, place ∈ (waiting.get? x).getD [] ↔ AwaitedAt layout table x pre place
  met : ∀ x, Carried noted x → isOpen names x = false ∧ waiting.get? x = none

theorem awaited_eq (layout : Layout) (table : OpTable)
    (hl : l.mnemonic ≠ "START" ∧ l.mnemonic ≠ "END") :
    awaited layout table l = l.operands.filterMap (awaitedName? layout) := by
  unfold awaited
  split
  · next hst => exact absurd ((Statement.ofMnemonic_eq_start_iff _ _ _).1 hst) hl.1
  · next hst => exact absurd ((Statement.ofMnemonic_eq_finish_iff _ _ _).1 hst) hl.2
  · rfl

theorem carried_concat : Carried (noted ++ [l]) x ↔ Carried noted x ∨ l.mnemonic ≠ "START" ∧
    l.name? = some x := by
  simp only [Carried, List.mem_append, List.mem_singleton, or_and_right, exists_or, exists_eq_left]

theorem exists_split_concat {P : List Line → Line → Prop} :
    (∃ before q after, pre ++ [l] = before ++ q :: after ∧ P before q) ↔
      (∃ before q after, pre = before ++ q :: after ∧ P before q) ∨ P pre l := by
  constructor
  · intro ⟨before, q, after, hcut, h⟩
    cases after using List.reverseRecOn with
    | nil =>
      obtain ⟨rfl, hl⟩ := List.append_inj' hcut rfl
      obtain ⟨rfl, -⟩ := List.cons.inj hl
      exact .inr h
    | append_singleton after k =>
      rw [← List.cons_append, ← List.append_assoc] at hcut
      obtain ⟨rfl, -⟩ := List.append_inj' hcut rfl
      exact .inl ⟨before, q, after, rfl, h⟩
  · intro h
    obtain ⟨before, q, after, rfl, h⟩ | h := h
    · exact ⟨before, q, after ++ [l], by simp, h⟩
    · exact ⟨pre, l, [], rfl, h⟩

theorem awaitedAt_concat {place : Option Nat} : AwaitedAt layout table x (pre ++ [l]) place ↔
    AwaitedAt layout table x pre place ∨
      x ∈ awaited layout table l ∧
      place = lastPlace (recordLines layout table (pre ++ [l])).length :=
  exists_split_concat

theorem isOpen_insert_none (names : OrderedMap String (Option Int)) (x y : String)
    (h : isOpen names x = true) :
    isOpen (names.insert x none) y = isOpen names y := by
  by_cases hxy : x = y
  · subst hxy
    rw [h, isOpen, OrderedMap.get?_insert, if_pos rfl]
  · rw [isOpen, isOpen, OrderedMap.get?_insert, if_neg hxy]

theorem isOpen_awaitAll (place : Option Nat) (xs : List String) (y : String) :
    isOpen (awaitAll place names waiting xs).1 y = isOpen names y := by
  induction xs generalizing names waiting with
  | nil => rfl
  | cons x xs ih =>
    rw [awaitAll]
    split
    · next hx => rw [ih, isOpen_insert_none names x y hx]
    · exact ih

theorem get?_awaitAll_of_not_open (place : Option Nat) (xs : List String) {y : String}
    (hy : isOpen names y = false) :
    (awaitAll place names waiting xs).2.get? y = waiting.get? y := by
  induction xs generalizing names waiting with
  | nil => rfl
  | cons x xs ih =>
    rw [awaitAll]
    split
    · next hx =>
      have hne : x ≠ y := fun hxy => by simp [hxy, hy] at hx
      rw [ih (by rw [isOpen_insert_none names x y hx, hy]), Waiting.add, OrderedMap.get?_insert,
        if_neg hne]
    · exact ih hy

theorem mem_awaitAll (place : Option Nat) (xs : List String) {y : String}
    (hy : isOpen names y = true) (q : Option Nat) :
    q ∈ ((awaitAll place names waiting xs).2.get? y).getD [] ↔ q ∈ (waiting.get? y).getD [] ∨
      y ∈ xs ∧ q = place := by
  induction xs generalizing names waiting with
  | nil => simp [awaitAll]
  | cons x xs ih =>
    rw [awaitAll]
    split
    · next hx =>
      rw [ih (by rw [isOpen_insert_none names x y hx, hy]), Waiting.add, OrderedMap.get?_insert]
      by_cases hxy : x = y
      · subst hxy
        simp only [if_true, Option.getD_some, List.mem_append, List.mem_cons, true_or, true_and]
        tauto
      · have hyx : y ≠ x := Ne.symm hxy
        simp [hxy, hyx]
    · next hx =>
      have hyx : y ≠ x := fun hyx => by simp [hyx ▸ hy] at hx
      simp [ih hy, hyx]

namespace Awaiting

theorem empty : Awaiting layout table [] [] ∅ ∅ where
  new x _ := by
    refine ⟨rfl, fun place => ?_⟩
    simp [AwaitedAt]
  met x h := by
    obtain ⟨q, hq, -⟩ := h
    cases hq

/-- The label of a line is noted: nothing waits for it any more. -/
theorem note (h : Awaiting layout table noted pre names waiting) (hstart : l.mnemonic ≠ "START")
    (hx : l.name? = some x) (a : Int) :
    Awaiting layout table (noted ++ [l]) pre (names.insert x (some a)) (waiting.erase x) where
  new y hy := by
    rw [carried_concat, not_or] at hy
    have hne : x ≠ y := fun hxy => hy.2 ⟨hstart, hxy ▸ hx⟩
    obtain ⟨hopen, hplaces⟩ := h.new y hy.1
    refine ⟨?_, fun place => ?_⟩
    · unfold isOpen at hopen ⊢
      rwa [OrderedMap.get?_insert, if_neg hne]
    · rw [← hplaces place, OrderedMap.get?_erase, if_neg hne]
  met y hy := by
    by_cases hxy : x = y
    · subst hxy
      simp [isOpen]
    · rw [carried_concat] at hy
      obtain ⟨hopen, hwaiting⟩ :=
        h.met y (hy.resolve_right fun hl => hxy (Option.some.inj (hx.symm.trans hl.2)))
      refine ⟨?_, ?_⟩
      · unfold isOpen at hopen ⊢
        rwa [OrderedMap.get?_insert, if_neg hxy]
      · rw [OrderedMap.get?_erase, if_neg hxy, hwaiting]

/-- A line that notes no label, or one that is met already. -/
theorem skip (h : Awaiting layout table noted pre names waiting)
    (hl : ∀ x, l.mnemonic ≠ "START" → l.name? = some x → Carried noted x) :
    Awaiting layout table (noted ++ [l]) pre names waiting := by
  have hcarried : ∀ x, Carried (noted ++ [l]) x ↔ Carried noted x := fun x => by
    rw [carried_concat]
    exact or_iff_left_of_imp fun hx => hl x hx.1 hx.2
  exact ⟨fun x hx => h.new x (mt (hcarried x).2 hx), fun x hx => h.met x ((hcarried x).1 hx)⟩

/-- The names of a line are waited for at the last record. -/
theorem await (h : Awaiting layout table noted pre names waiting) {n : Nat}
    (hn : n = (recordLines layout table (pre ++ [l])).length) :
    Awaiting layout table noted (pre ++ [l])
      (awaitAll (lastPlace n) names waiting (awaited layout table l)).1
        (awaitAll (lastPlace n) names waiting (awaited layout table l)).2 where
  new x hx := by
    obtain ⟨hopen, hplaces⟩ := h.new x hx
    refine ⟨by rw [isOpen_awaitAll, hopen], fun place => ?_⟩
    rw [mem_awaitAll _ _ hopen, hplaces, awaitedAt_concat, hn]
  met x hx := by
    obtain ⟨hopen, hwaiting⟩ := h.met x hx
    exact ⟨by rw [isOpen_awaitAll, hopen], by rw [get?_awaitAll_of_not_open _ _ hopen, hwaiting]⟩

/-- A start directive notes no label and waits for no name. -/
theorem start (h : Awaiting layout table pre pre names waiting) (hl : l.mnemonic = "START") :
    Awaiting layout table (pre ++ [l]) (pre ++ [l]) names waiting := by
  have hnone : awaited layout table l = [] := by
    rw [awaited, (Statement.ofMnemonic_eq_start_iff layout table _).2 hl]
  have hawait := (h.skip fun x hne => absurd hl hne).await (l := l) rfl
  rwa [hnone] at hawait

end Awaiting

/-! ## Filling records -/

section

variable {α : Type} {mute : Prop} {f : α → Except Fault α} {kind : α → Bool} {P : α → Prop}
  {rs : List α}

/-- The record at a place, or the last one, is one that can be filled. -/
def FitsAt (kinds : List Bool) (place : Option Nat) : Prop :=
  kinds[place.getD (kinds.length - 1)]? = some true

theorem takes_changeAt
    (hf : ∀ r, P r → Takes mute (kind r = false) (fun r' => P r' ∧ kind r' = kind r) (f r))
    (hrs : ∀ r ∈ rs, P r) (place : Option Nat) :
    Takes mute (¬ FitsAt (rs.map kind) place)
      (fun rs' => (∀ r ∈ rs', P r) ∧ rs'.map kind = rs.map kind) (changeAt f place rs) := by
  unfold changeAt
  simp only [FitsAt, List.length_map, List.getElem?_map]
  generalize place.getD (rs.length - 1) = i
  cases hr : rs[i]? with
  | none => exact .inr (by simp)
  | some r =>
    refine ((hf r (hrs r (List.mem_of_getElem? hr))).map fun r' ⟨hr', hkind⟩ =>
      ⟨fun q hq => ?_, ?_⟩).congr (by simp)
    · obtain hq | rfl := List.mem_or_eq_of_mem_set hq
      · exact hrs q hq
      · exact hr'
    · obtain ⟨hi, rfl⟩ := List.getElem?_eq_some_iff.1 hr
      rw [List.map_set, hkind, ← List.map_set, List.set_getElem_self hi]

theorem takes_changeAll
    (hf : ∀ r, P r → Takes mute (kind r = false) (fun r' => P r' ∧ kind r' = kind r) (f r))
    (hrs : ∀ r ∈ rs, P r) (places : List (Option Nat)) :
    Takes mute (∃ place ∈ places, ¬ FitsAt (rs.map kind) place)
      (fun rs' => (∀ r ∈ rs', P r) ∧ rs'.map kind = rs.map kind) (changeAll f places rs) := by
  induction places generalizing rs with
  | nil => exact ⟨by simp, hrs, rfl⟩
  | cons place places ih =>
    have hbind :
        changeAll f (place :: places) rs = (changeAt f place rs).bind (changeAll f places) := by
      rw [changeAll]
      cases changeAt f place rs <;> rfl
    rw [hbind]
    refine ((takes_changeAt hf hrs place).bind fun rs' h => ?_).congr
      (by rw [List.exists_mem_cons_iff])
    have hrest := ih h.1
    rwa [h.2] at hrest

end

theorem ofMnemonic_flat (table : OpTable) (hlayout : layout ≠ .sectioned) (m : String) :
    Statement.ofMnemonic layout table m ≠ .newSection ∧
      Statement.ofMnemonic layout table m ≠ .exportName ∧
      Statement.ofMnemonic layout table m ≠ .importName := by
  have htable : ∀ m, Statement.ofTable table m ≠ .newSection ∧
      Statement.ofTable table m ≠ .exportName ∧
      Statement.ofTable table m ≠ .importName := by
    intro m
    unfold Statement.ofTable
    split <;> simp
  have honly : ∀ st other, Statement.sectionOnly layout st other = other := by
    intro st other
    cases layout with
    | sectioned => exact absurd rfl hlayout
    | _ => rfl
  unfold Statement.ofMnemonic
  simp only [honly]
  repeat' split
  all_goals first | exact htable m | simp

/-! ## Labels -/

/-- The line whose record is filled for a name that the last of the lines `upTo` waits for: the last
of them that left a record, or the last line of all that did. -/
def waitsAt (layout : Layout) (table : OpTable) (upTo pre : List Line) : Option Line :=
  (recordLines layout table upTo).getLast?.or (recordLines layout table pre).getLast?

/-- A name is met for the first time, and a line waits for it where no record can be filled. -/
def Stuck (fills : Line → Bool) (layout : Layout) (table : OpTable) (pre : List Line) (x : String) :
    Prop :=
  ¬ Carried pre x ∧ ∃ before q after, pre = before ++ q :: after ∧ x ∈ awaited layout table q ∧
    ∀ k ∈ waitsAt layout table (before ++ [q]) pre, fills k = false

theorem fitsAt_iff (fills : Line → Bool) {before after : List Line} {q : Line}
    (hpre : pre = before ++ q :: after) :
    FitsAt ((recordLines layout table pre).map fills)
      (lastPlace (recordLines layout table (before ++ [q])).length) ↔
      ∃ k ∈ waitsAt layout table (before ++ [q]) pre, fills k = true := by
  obtain ⟨rest, hrest⟩ :
      ∃ rest, recordLines layout table pre = recordLines layout table (before ++ [q]) ++ rest :=
    ⟨_, by rw [hpre, List.append_cons, recordLines, List.filter_append]; rfl⟩
  unfold FitsAt waitsAt lastPlace
  rw [List.length_map, List.getElem?_map, hrest]
  generalize recordLines layout table (before ++ [q]) = upTo
  cases upTo using List.reverseRecOn with
  | nil => simp [List.getLast?_eq_getElem?, Option.map_eq_some_iff]
  | append_singleton upTo k =>
    simp

namespace Awaiting

variable {α : Type} {mute : Prop} {f : α → Except Fault α} {kind : α → Bool} {fills : Line → Bool}
  {P : α → Prop} {rs : List α}

/-- The records that wait for a label are filled if and only if it is not stuck. -/
theorem fill (h : Awaiting layout table pre pre names waiting)
    (hf : ∀ r, P r → Takes mute (kind r = false) (fun r' => P r' ∧ kind r' = kind r) (f r))
    (hrs : ∀ r ∈ rs, P r) (hkinds : rs.map kind = (recordLines layout table pre).map fills)
    (x : String) :
    Takes mute (Stuck fills layout table pre x)
      (fun rs' => (∀ r ∈ rs', P r) ∧ rs'.map kind = (recordLines layout table pre).map fills)
      (changeAll f ((waiting.get? x).getD []) rs) := by
  have hall := takes_changeAll hf hrs ((waiting.get? x).getD [])
  rw [hkinds] at hall
  refine hall.congr ?_
  by_cases hx : Carried pre x
  · rw [(h.met x hx).2]
    simp [Stuck, hx]
  · constructor
    · intro ⟨place, hplace, hno⟩
      obtain ⟨before, q, after, hpre, hq, rfl⟩ := ((h.new x hx).2 place).1 hplace
      refine ⟨hx, before, q, after, hpre, hq, fun k hk => ?_⟩
      rw [fitsAt_iff fills hpre] at hno
      exact Bool.eq_false_iff.2 fun hfills => hno ⟨k, hk, hfills⟩
    · intro ⟨_, before, q, after, hpre, hq, hno⟩
      refine ⟨_, ((h.new x hx).2 _).2 ⟨before, q, after, hpre, hq, rfl⟩, ?_⟩
      rw [fitsAt_iff fills hpre]
      intro ⟨k, hk, hfills⟩
      simp [hno k hk] at hfills

theorem carried_of_isTaken (h : Awaiting layout table noted pre names waiting)
    (hx : isTaken names x = true) : Carried noted x := by
  by_contra hno
  have hopen := (h.new x hno).1
  unfold isTaken at hx
  unfold isOpen at hopen
  split at hx
  · next hget => simp [hget] at hopen
  · cases hx

end Awaiting

/-! ## Absolute programs -/

namespace Absolute

/-- A line carries a name for the first time that a line before it waits for, and no line before it
has left a record. -/
def Halts (table : OpTable) (pre : List Line) (l : Line) : Prop :=
  l.mnemonic ≠ "START" ∧ recordLines .absolute table pre = [] ∧
    ∃ x, l.name? = some x ∧ ¬ Carried pre x ∧ ∃ q ∈ pre, x ∈ awaited .absolute table q

/-- The pass after some lines, the labels of more lines being noted. -/
structure Kept (table : OpTable) (noted pre : List Line) (s : State) : Prop where
  going : s.ended = false
  records : s.records.length = (recordLines .absolute table pre).length
  tables : Awaiting .absolute table noted pre s.names s.waiting

theorem kept_start (table : OpTable) : Kept table [] [] .start := ⟨rfl, rfl, .empty⟩

variable {s s' : State} {n : Nat}

theorem Kept.report (h : Kept table noted pre s) (n : Nat) (ps : List Problem) :
    Kept table noted pre (s.report n ps) :=
  ⟨h.going, h.records, h.tables⟩

theorem Kept.expectStarted (h : Kept table noted pre s) (n : Nat) :
    Kept table noted pre (s.expectStarted n) := by
  unfold State.expectStarted
  split
  · exact h
  · exact h.report n _

theorem halts_iff (hl : l.mnemonic ≠ "START") (hx : l.name? = some x) :
    Stuck (fun _ => true) .absolute table pre x ↔ Halts table pre l := by
  have hwaits : ∀ before q after, pre = before ++ q :: after →
      ((∀ k ∈ waitsAt .absolute table (before ++ [q]) pre, true = false) ↔
        recordLines .absolute table pre = []) := by
    intro before q after hpre
    have hupTo : recordLines .absolute table pre = [] →
        recordLines .absolute table (before ++ [q]) = [] := by
      rw [hpre, List.append_cons, recordLines, List.filter_append]
      exact fun hnil => (List.append_eq_nil_iff.1 hnil).1
    have hnone : (∀ k ∈ waitsAt .absolute table (before ++ [q]) pre, true = false) ↔
        waitsAt .absolute table (before ++ [q]) pre = none := by
      simp [Option.eq_none_iff_forall_not_mem]
    rw [hnone, waitsAt, Option.or_eq_none_iff, List.getLast?_eq_none_iff, List.getLast?_eq_none_iff]
    exact and_iff_right_of_imp hupTo
  constructor
  · intro ⟨hcarried, before, q, after, hpre, hq, hno⟩
    exact ⟨hl, (hwaits before q after hpre).1 hno, x, hx, hcarried, q, by simp [hpre], hq⟩
  · intro ⟨_, hnil, y, hy, hcarried, q, hmem, hq⟩
    obtain rfl := Option.some.inj (hx.symm.trans hy)
    obtain ⟨before, after, hpre⟩ := List.append_of_mem hmem
    exact ⟨hcarried, before, q, after, hpre, hq, (hwaits before q after hpre).2 hnil⟩

theorem fillWaiting_eq (s : State) (x : String) : s.fillWaiting x =
    (changeAll (fun r => .ok (appendAddress s.counter r))
      ((s.waiting.get? x).getD []) s.records).map fun rs =>
      { s with records := rs, waiting := s.waiting.erase x } := by
  unfold State.fillWaiting
  cases hw : s.waiting.get? x with
  | none => simp [changeAll, s.waiting.erase_of_get?_eq_none hw]
  | some places => rfl

/-- A label is noted unless it halts the pass. -/
theorem Kept.noteLabel {mute : Prop} (h : Kept table pre pre s) (hl : l.mnemonic ≠ "START") :
    Takes mute (Halts table pre l) (Kept table (pre ++ [l]) pre) (s.noteLabel n l) := by
  unfold State.noteLabel
  cases hx : l.name? with
  | none =>
    exact ⟨fun ⟨_, _, y, hy, _⟩ => by simp [hx] at hy, h.going, h.records,
      h.tables.skip fun y _ hy => by simp [hx] at hy⟩
  | some x =>
    dsimp only
    split
    · next htaken =>
      have hcarried := h.tables.carried_of_isTaken htaken
      refine ⟨fun hhalts => ((halts_iff hl hx).2 hhalts).1 hcarried, h.going, h.records,
        h.tables.skip fun y _ hy => ?_⟩
      obtain rfl := Option.some.inj (hx.symm.trans hy)
      exact hcarried
    · rw [fillWaiting_eq]
      have hkinds :
          s.records.map (fun _ => true) = (recordLines .absolute table pre).map fun _ => true := by
        simp [List.map_const', h.records]
      have hf : ∀ r, True →
          Takes mute (true = false) (fun _ => True ∧ true = true)
            (.ok (appendAddress s.counter r)) :=
        fun _ _ => ⟨by simp, trivial, rfl⟩
      have hfill := h.tables.fill hf (fun _ _ => trivial) hkinds x
      refine (hfill.map fun rs' hrs' => ⟨h.going, ?_, h.tables.note hl hx _⟩).congr
        (halts_iff hl hx)
      simpa using congrArg List.length hrs'.2

/-- The names of a line are waited for when its record, if it leaves one, has been added. -/
theorem Kept.waitForAll (h : Kept table noted pre s)
    (hl : l.mnemonic ≠ "START" ∧ l.mnemonic ≠ "END")
    (hlength : s'.records.length = (recordLines .absolute table (pre ++ [l])).length)
    (hs : s'.ended = s.ended ∧ s'.names = s.names ∧ s'.waiting = s.waiting) :
    Kept table noted (pre ++ [l]) (s'.waitForAll l) := by
  obtain ⟨hended, hnames, hwaiting⟩ := hs
  refine ⟨hended.trans h.going, hlength, ?_⟩
  simp only [State.waitForAll, FlatFrame.await, hnames, hwaiting, ← awaited_eq .absolute table hl]
  exact h.tables.await hlength

/-- A line has added its record, if it leaves one, and has left alone what else counts. -/
structure Laid (table : OpTable) (l : Line) (s s' : State) : Prop where
  records : s'.records.length = s.records.length + if leavesRecord .absolute table l then 1 else 0
  others : s'.ended = s.ended ∧ s'.names = s.names ∧ s'.waiting = s.waiting

theorem laid_storageLine (s : State) {kind : Storage}
    (hst : Statement.ofMnemonic .absolute table l.mnemonic = .storage kind) :
    Tells (vast ≤ l.weight .absolute table) (Laid table l s) (s.storageLine kind n l) := by
  unfold State.storageLine
  cases ha : kind.allot s.counter l.operands with
  | error p => exact ⟨by rw [leavesRecord_of_not_allotted hst ha]; rfl, rfl, rfl, rfl⟩
  | ok a =>
    refine (tells_allotted ha).map fun ps _ => ⟨?_, rfl, rfl, rfl⟩
    rw [leavesRecord_of_allotted hst ha]
    exact List.length_append

theorem laid_commandLine (s : State) (use : NameUse) {op : Operation}
    (hst : Statement.ofMnemonic .absolute table l.mnemonic = .command op)
    (hl : ∀ o ∈ l.operands, o.Legible) :
    Tells (vast ≤ l.weight .absolute table) (Laid table l s) (s.commandLine use op n l) := by
  have hproblems := tells_commandProblems hst hl s.counter
  obtain ⟨field, hfield⟩ :=
    inOnePass_isOk (Scope.absolute_knows s.names (s.counter + op.size)) hl op.size
  unfold State.commandLine
  dsimp only [State.scope, dialect]
  rw [hfield]
  cases hps : commandProblems .absolute s.counter l.mnemonic op.size l.operands with
  | error x => rwa [hps] at hproblems
  | ok ps =>
    refine ⟨?_, rfl, rfl, rfl⟩
    rw [leavesRecord_of_command hst]
    exact List.length_append

theorem Kept.bodyLine (h : Kept table noted pre s) (use : NameUse)
    (hstart : l.mnemonic ≠ "START") (hl : ∀ o ∈ l.operands, o.Legible) :
    Tells (vast ≤ l.weight .absolute table)
      (fun s' => (l.mnemonic ≠ "END" → Kept table noted (pre ++ [l]) s') ∧
        (l.mnemonic = "END" → s'.ended = true))
      (s.bodyLine use (Statement.ofMnemonic .absolute table l.mnemonic) n l) := by
  have hwait : Statement.ofMnemonic .absolute table l.mnemonic ≠ .finish → ∀ s', Laid table l s s' →
      (l.mnemonic ≠ "END" → Kept table noted (pre ++ [l]) (s'.waitForAll l)) ∧
        (l.mnemonic = "END" → (s'.waitForAll l).ended = true) := by
    intro hst s' hlaid
    have hend := mt (Statement.ofMnemonic_eq_finish_iff .absolute table _).2 hst
    refine ⟨fun _ => h.waitForAll ⟨hstart, hend⟩ ?_ hlaid.others, fun heq => absurd heq hend⟩
    rw [hlaid.records, h.records, recordLines_concat]
    split <;> simp
  obtain ⟨hsection, hexport, himport⟩ :=
    ofMnemonic_flat table (show Layout.absolute ≠ .sectioned by decide) l.mnemonic
  unfold State.bodyLine
  cases hst : Statement.ofMnemonic .absolute table l.mnemonic with
  | start => exact absurd ((Statement.ofMnemonic_eq_start_iff _ _ _).1 hst) hstart
  | finish =>
    exact ⟨fun hne => absurd ((Statement.ofMnemonic_eq_finish_iff _ _ _).1 hst) hne, fun _ => rfl⟩
  | storage kind => exact (laid_storageLine s hst).map (hwait (by simp [hst]))
  | command op => exact (laid_commandLine s use hst hl).map (hwait (by simp [hst]))
  | unknown =>
    refine hwait (by simp [hst]) (s.report n [.unknownCommand l.mnemonic]) ⟨?_, rfl, rfl, rfl⟩
    rw [leavesRecord_of_unknown hst]
    rfl
  | newSection => exact absurd hst hsection
  | exportName => exact absurd hst hexport
  | importName => exact absurd hst himport

theorem Kept.startLine (h : Kept table pre pre s) (hl : l.mnemonic = "START") :
    Kept table (pre ++ [l]) (pre ++ [l]) (s.startLine n l) := by
  have hst := (Statement.ofMnemonic_eq_start_iff .absolute table _).2 hl
  refine ⟨(s.ended_commence _ _ l).trans h.going, ?_, h.tables.start hl⟩
  have hleaves : leavesRecord .absolute table l = true := by rw [leavesRecord, hst]
  simp [State.startLine, recordLines_concat, hleaves, ← h.records]

/-- A line is taken in if and only if it does not halt the pass, or is overweight. -/
theorem breaking (table : OpTable) (use : NameUse) :
    (pass table use).Breaking Readable (fun pre s => Kept table pre pre s)
      (Overweight .absolute table) (Halts table) where
  going h := h.going
  shown _ := ⟨_, rfl⟩
  step {pre s n l} h hl := by
    change Takes _ _ _ (State.line table use s n l)
    by_cases hstart : l.mnemonic = "START"
    · rw [State.line, (Statement.ofMnemonic_eq_start_iff .absolute table _).2 hstart]
      refine ⟨fun hhalts => hhalts.1 hstart, ⟨_, rfl⟩, fun _ => h.startLine hstart, fun hend => ?_⟩
      exact absurd (hstart.symm.trans hend) (by decide)
    · rw [State.line, takeIn_of_ne_start (mt (Statement.ofMnemonic_eq_start_iff _ _ _).1 hstart)]
      refine (((h.expectStarted n).noteLabel hstart).bind fun s' hs' => ?_).congr
        (iff_of_eq (or_false _))
      refine (((hs'.bodyLine use hstart hl.legible).takes not_false).imp fun s' hbody => ?_).mono
        overweight_of_weight
      exact ⟨⟨_, rfl⟩, hbody.1, fun hend => ⟨hbody.2 hend, _, rfl⟩⟩

end Absolute

end Assembler.OnePass
