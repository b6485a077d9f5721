import Assembler.Proofs.BrokenRuns
import Assembler.Proofs.MovedExport

/-! # Sectioned runs that break off

In sectioned programs names belong to the open section: a line that mentions one before any section
is open breaks the run off.  The directive that closes a section writes the length of the section
into a record, and looks up the operands of the commands with direct names, each of which has to be
a name the section has met. -/

namespace Assembler.OnePass.Sectioned
open Assembler State
set_option autoImplicit false

variable {table : OpTable} {pre : List Line} {l : Line} {s s' s'' : State} {mute : Prop}

/-! ## What lines say -/

/-- Whether a section is open behind lines. -/
def Opened (ls : List Line) : Prop := ∃ q ∈ ls, q.mnemonic = "START" ∨ q.mnemonic = "CSECT"

/-- The names that a line gives to the section behind its label. -/
def bodyNames (table : OpTable) (l : Line) : List String :=
  match Statement.ofMnemonic .sectioned table l.mnemonic with
  | .exportName | .importName => (linkedName? l).toList
  | .command _ => l.operands.filterMap Operand.referredName?
  | _ => []

/-- The names that a line gives to the open section. -/
def mentions (table : OpTable) (l : Line) : List String :=
  if l.mnemonic = "START" ∨ l.mnemonic = "CSECT" then [] else l.name?.toList ++ bodyNames table l

/-- The texts that are looked up for a line when its section is closed. -/
def looksUp (table : OpTable) (l : Line) : List String :=
  match Statement.ofMnemonic .sectioned table l.mnemonic with
  | .command _ =>
    if Addressing.ofOperands l.operands = .direct then l.operands.map Operand.text else []
  | _ => []

theorem looksUp_eq_nil (h : ∀ op, Statement.ofMnemonic .sectioned table l.mnemonic ≠ .command op) :
    looksUp table l = [] := by
  unfold looksUp
  split
  · next op hst => exact absurd hst (h op)
  · rfl

/-- The texts that the next directive closing a section looks up; a second start directive does not
let them go. -/
def lookups (table : OpTable) (ls : List Line) : List String :=
  (ls.rtakeWhile fun l => l.mnemonic ≠ "CSECT").flatMap (looksUp table)

/-- A line mentions a name where no section is open; or it closes a section, and there is no record
to hold the length or one of the texts looked up is not a name of the section. -/
def Halts (table : OpTable) (pre : List Line) (l : Line) : Prop :=
  (¬ Opened pre ∧ mentions table l ≠ []) ∨
    (l.mnemonic = "CSECT" ∨ l.mnemonic = "END") ∧ (recordLines .sectioned table pre = [] ∨
      ∃ t ∈ lookups table pre, t ∉ (openLines pre ++ [l]).flatMap (mentions table))

/-! ## States -/

def HasSection (s : State) : Prop := ∃ ns, s.sections.get? s.current = some ns

/-- The open section has met a name. -/
def IsMet (s : State) (x : String) : Prop :=
  ∃ ns, s.sections.get? s.current = some ns ∧ ns.contains x = true

/-- What holds of every state: the header lies among the records, strings have values, references
wait at records, texts are noted for records only, and no section has the empty label. -/
structure Sound (s : State) : Prop where
  header : s.headerPlace ≤ s.drafts.length - 1
  readable : ∀ r ∈ s.drafts, r.Readable
  places : ∀ x, ∀ place ∈ (s.waiting.get? x).getD [], ∃ i, place = some i ∧ i < s.drafts.length
  noted : s.drafts = [] → s.modified = []
  unnamed : s.sections.get? (some "") = none

/-- The pass goes from one state to another: it meets names, notes texts to look up, and may leave a
record. -/
structure Moves (s s' : State) (xs ts : List String) (leaves : Bool) : Prop where
  sound : Sound s'
  ended : s'.ended = s.ended
  opened : HasSection s' ↔ HasSection s
  met : ∀ x, IsMet s' x ↔ IsMet s x ∨ x ∈ xs
  texts : s'.modified.map Prod.snd = s.modified.map Prod.snd ++ ts
  records : s'.drafts = [] ↔ s.drafts = [] ∧ leaves = false

theorem hasSection_iff : HasSection s ↔ ∃ ns, s.names = .ok ns := by
  simp only [HasSection, names_eq_ok_iff]

theorem not_hasSection_of_error {x : Fault} (h : s.names = .error x) : ¬ HasSection s := by
  rw [hasSection_iff]
  intro ⟨ns, hns⟩
  simp [h] at hns

theorem isMet_iff {ns : SectionNames (Option Int)} (hns : s.names = .ok ns) (x : String) :
    IsMet s x ↔ ns.contains x = true := by
  rw [names_eq_ok_iff] at hns
  simp [IsMet, hns]

namespace Moves

variable {xs ys ts us : List String} {a b : Bool}

theorem trans (h : Moves s s' xs ts a) (h' : Moves s' s'' ys us b) :
    Moves s s'' (xs ++ ys) (ts ++ us) (a || b) where
  sound := h'.sound
  ended := h'.ended.trans h.ended
  opened := h'.opened.trans h.opened
  met x := by rw [h'.met, h.met, List.mem_append, or_assoc]
  texts := by rw [h'.texts, h.texts, List.append_assoc]
  records := by simp [h'.records, h.records, and_assoc]

theorem refl (h : Sound s) : Moves s s [] [] false := ⟨h, rfl, Iff.rfl, by simp, by simp, by simp⟩

theorem report (h : Sound s) (ps : List Problem) : Moves s (s.report ps) [] [] false :=
  ⟨⟨h.header, h.readable, h.places, h.noted, h.unnamed⟩, rfl,
    Iff.rfl, by simp [IsMet, State.report], by simp [State.report],
    by simp [State.report]⟩

theorem moveTo (h : Sound s) (counter : Int) : Moves s (s.moveTo counter) [] [] false :=
  ⟨⟨h.header, h.readable, h.places, h.noted, h.unnamed⟩, rfl,
    Iff.rfl, by simp [IsMet, State.moveTo], by simp [State.moveTo],
    by simp [State.moveTo]⟩

theorem add (h : Sound s) {r : Draft} (hr : r.Readable) : Moves s (s.add r) [] [] true where
  sound :=
    { header := by
        have := h.header
        simp only [State.add, List.length_append, List.length_singleton]
        omega
      readable := List.forall_mem_append.2 ⟨h.readable, List.forall_mem_singleton.2 hr⟩
      places := fun x place hplace => by
        obtain ⟨i, rfl, hi⟩ := h.places x place hplace
        exact ⟨i, rfl, by simp only [State.add, List.length_append]; omega⟩
      noted := fun hnil => absurd hnil (by simp [State.add])
      unnamed := h.unnamed }
  ended := rfl
  opened := Iff.rfl
  met := by simp [IsMet, State.add]
  texts := by simp [State.add]
  records := by simp [State.add]

/-- The open section meets names. -/
theorem setNames (h : Sound s) {ns ns' : SectionNames (Option Int)} (hns : s.names = .ok ns)
    (hmet : ∀ x, ns'.contains x = true ↔ ns.contains x = true ∨ x ∈ xs) :
    Moves s (s.setNames ns') xs [] false where
  sound :=
    { header := h.header
      readable := h.readable
      places := h.places
      noted := h.noted
      unnamed := by
        have hcurrent : s.current ≠ some "" := fun hempty => by
          rw [names_eq_ok_iff, hempty, h.unnamed] at hns
          cases hns
        simp [State.setNames, hcurrent, h.unnamed] }
  ended := rfl
  opened := by
    rw [names_eq_ok_iff] at hns
    simp [HasSection, State.setNames, hns]
  met x := by
    rw [isMet_iff hns, ← hmet]
    simp [IsMet, State.setNames]
  texts := by simp [State.setNames]
  records := by simp [State.setNames]

/-- A name waits at the last record. -/
theorem wait (h : Sound s) (hrecord : s.drafts ≠ []) (x : String) :
    Moves s { s with waiting := s.waiting.add x (lastPlace s.drafts.length) } [] [] false where
  sound :=
    { header := h.header
      readable := h.readable
      places := fun y place hplace => by
        simp only [Waiting.add, OrderedMap.get?_insert] at hplace
        have hlength := List.length_pos_of_ne_nil hrecord
        split at hplace
        · simp only [Option.getD_some, List.mem_append, List.mem_singleton] at hplace
          obtain hplace | rfl := hplace
          · exact h.places x place hplace
          · exact ⟨s.drafts.length -
              1, by rw [lastPlace, if_neg (by omega)], by change _ < s.drafts.length; omega⟩
        · exact h.places y place hplace
      noted := h.noted
      unnamed := h.unnamed }
  ended := rfl
  opened := Iff.rfl
  met := by simp [IsMet]
  texts := by simp
  records := by simp

/-- A record is replaced. -/
theorem set (h : Sound s) (i : Nat) {r : Draft} (hr : r.Readable) :
    Moves s { s with drafts := s.drafts.set i r } [] [] false where
  sound :=
    { header := by simpa using h.header
      readable := fun q hq => by
        obtain hq | rfl := List.mem_or_eq_of_mem_set hq
        · exact h.readable q hq
        · exact hr
      places := by simpa using h.places
      noted := by simpa using h.noted
      unnamed := h.unnamed }
  ended := rfl
  opened := Iff.rfl
  met := by simp [IsMet]
  texts := by simp
  records := by simp

/-- Names that are met already may be met again. -/
theorem meet (h : Moves s s' [] ts a) (hxs : ∀ x ∈ xs, IsMet s x) : Moves s s' xs ts a :=
  ⟨h.sound, h.ended, h.opened, fun x => by simpa [or_iff_left_of_imp (hxs x)] using h.met x,
    h.texts, h.records⟩

end Moves

theorem contains_insert (ns : SectionNames (Option Int)) (x : String) (e : Entry (Option Int))
    (y : String) :
    (ns.insert x e).contains y = true ↔ ns.contains y = true ∨ y ∈ [x] := by
  rw [OrderedMap.contains, OrderedMap.get?_insert, List.mem_singleton]
  split
  · next hxy => simp [hxy]
  · next hxy => simp [Ne.symm hxy, OrderedMap.contains]

/-! ## Labels -/

theorem tells_fillAt (h : Sound s) {place : Option Nat}
    (hplace : ∃ i, place = some i ∧ i < s.drafts.length) :
    Tells mute
      (fun s' => Moves s s' [] [] false ∧ s'.drafts.length = s.drafts.length ∧
        s'.waiting = s.waiting) (s.fillAt place) := by
  obtain ⟨i, rfl, hi⟩ := hplace
  unfold fillAt
  simp only [Option.getD_some, List.getElem?_eq_getElem hi]
  cases hr : s.fill s.drafts[i] with
  | error x => exact ⟨.report h _, rfl, rfl⟩
  | ok r' => exact ⟨.set h i ((h.readable _ (List.getElem_mem hi)).fill hr), List.length_set, rfl⟩

theorem tells_fillPlaces (h : Sound s) {places : List (Option Nat)}
    (hplaces : ∀ place ∈ places, ∃ i, place = some i ∧ i < s.drafts.length) :
    Tells mute (fun s' => Moves s s' [] [] false ∧ s'.waiting = s.waiting)
      (s.fillPlaces places) := by
  induction places generalizing s with
  | nil => exact ⟨.refl h, rfl⟩
  | cons place places ih =>
    have hfirst : Tells mute _ _ := tells_fillAt h (hplaces place List.mem_cons_self)
    rw [fillPlaces]
    cases hfill : s.fillAt place with
    | error x =>
      rw [hfill] at hfirst
      exact hfirst
    | ok s₁ =>
      rw [hfill] at hfirst
      obtain ⟨hmoves, hlength, hwaiting⟩ := hfirst
      refine (ih hmoves.sound fun q hq => ?_).imp fun s₂ hs₂ =>
        ⟨hmoves.trans hs₂.1, hs₂.2.trans hwaiting⟩
      rw [hlength]
      exact hplaces q (List.mem_cons_of_mem _ hq)

theorem tells_fillWaiting (h : Sound s) (x : String) :
    Tells mute (fun s' => Moves s s' [] [] false) (s.fillWaiting x) := by
  unfold fillWaiting
  cases hw : s.waiting.get? x with
  | none => exact .refl h
  | some places =>
    have hplaces := h.places x
    rw [hw] at hplaces
    refine (tells_fillPlaces h hplaces).map fun s' ⟨hmoves, _⟩ => ?_
    obtain ⟨hsound, hended, hopened, hmet, htexts, hrecords⟩ := hmoves
    refine ⟨⟨hsound.header, hsound.readable, fun y place hplace => hsound.places y place ?_,
      hsound.noted, hsound.unnamed⟩, hended, hopened, hmet, htexts, hrecords⟩
    simp only [OrderedMap.get?_erase] at hplace
    split at hplace
    · simp at hplace
    · exact hplace

theorem takes_noteLabel (h : Sound s) (l : Line) :
    Takes mute (¬ HasSection s ∧ l.name?.toList ≠ []) (fun s' => Moves s s' l.name?.toList [] false)
      (s.noteLabel l) := by
  unfold noteLabel
  cases hx : l.name? with
  | none => exact ⟨by simp, .refl h⟩
  | some x =>
    dsimp only
    cases hns : s.names with
    | error y => exact .inr ⟨not_hasSection_of_error hns, by simp⟩
    | ok ns =>
      have hopen : ¬ (¬ HasSection s ∧ (some x).toList ≠ []) :=
        fun hno => hno.1 (hasSection_iff.2 ⟨ns, hns⟩)
      dsimp only
      split
      · next haddress =>
        have hmet : IsMet s x := (isMet_iff hns x).2 (Option.isSome_of_isSome_bind haddress)
        exact ⟨hopen, (Moves.report h _).meet (List.forall_mem_singleton.2 hmet)⟩
      · refine Tells.takes ?_ hopen
        have hreport := Moves.report h (rangeProblems s.counter (.label x))
        have hset :
            Moves _ ((s.report (rangeProblems s.counter (.label x))).setAddress ns x) [x]
              [] false :=
          .setNames hreport.sound hns (contains_insert ns x _)
        exact (tells_fillWaiting hset.sound x).imp fun s' hfill => (hreport.trans hset).trans hfill

/-! ## The body of a section -/

theorem tells_storageLine (h : Sound s) {kind : Storage}
    (hst : Statement.ofMnemonic .sectioned table l.mnemonic = .storage kind) :
    Tells (vast ≤ l.weight .sectioned table)
      (fun s' => Moves s s' [] [] (leavesRecord .sectioned table l)) (s.storageLine kind l) := by
  unfold storageLine
  cases ha : kind.allot s.counter l.operands with
  | error p =>
    rw [leavesRecord_of_not_allotted hst ha]
    exact .report h _
  | ok a =>
    rw [leavesRecord_of_allotted hst ha]
    refine (tells_allotted ha).map fun ps _ => ?_
    have hadd :=
      (Moves.report h ps).trans
        (.add (Moves.report h ps).sound (Draft.readable_ofAllotment a s.counter))
    exact hadd.trans (.moveTo hadd.sound _)

theorem takes_names (s : State) :
    Takes mute (¬ HasSection s) (fun ns => s.names = .ok ns) s.names := by
  cases hns : s.names with
  | error x => exact .inr (not_hasSection_of_error hns)
  | ok ns => exact ⟨not_not.2 (hasSection_iff.2 ⟨ns, hns⟩), rfl⟩

theorem Moves.markExported (h : Sound s) {ns : SectionNames (Option Int)} (hns : s.names = .ok ns)
    (x : String) :
    Moves s (s.markExported ns x) [x] [] false := by
  unfold State.markExported
  cases hx : ns.get? x with
  | none => exact .setNames h hns (contains_insert ns x _)
  | some e =>
    dsimp only
    split
    · exact .setNames h hns (contains_insert ns x _)
    · have hmet : IsMet s x := (isMet_iff hns x).2 (by rw [OrderedMap.contains, hx]; rfl)
      exact (Moves.report h _).meet (List.forall_mem_singleton.2 hmet)

theorem takes_exportLine (h : Sound s)
    (hst : Statement.ofMnemonic .sectioned table l.mnemonic = .exportName) :
    Takes mute (¬ HasSection s ∧ (linkedName? l).toList ≠ [])
      (fun s' => Moves s s' (linkedName? l).toList [] (leavesRecord .sectioned table l))
      (s.exportLine l) := by
  have hleaves : leavesRecord .sectioned table l = (linkedName? l).isSome := by
    rw [leavesRecord, hst]
  rw [hleaves]
  unfold exportLine
  cases hx : linkedName? l with
  | none => exact ⟨by simp, .report h _⟩
  | some x =>
    refine ((takes_names s).map fun ns hns => ?_).congr (by simp)
    have hmark := Moves.markExported h hns x
    have hadd := hmark.trans (.add hmark.sound (r := .definition (.direct x) [.direct x]) ?_)
    · exact hadd.trans (.wait hadd.sound (by simp [State.add]) x)
    · exact List.forall_mem_singleton.2 fun hstate => by cases hstate

theorem takes_importLine (h : Sound s)
    (hst : Statement.ofMnemonic .sectioned table l.mnemonic = .importName) :
    Takes mute (¬ HasSection s ∧ (linkedName? l).toList ≠ [])
      (fun s' => Moves s s' (linkedName? l).toList [] (leavesRecord .sectioned table l))
      (s.importLine l) := by
  have hleaves : leavesRecord .sectioned table l = (linkedName? l).isSome := by
    rw [leavesRecord, hst]
  rw [hleaves]
  unfold importLine
  cases hx : linkedName? l with
  | none => exact ⟨by simp, .report h _⟩
  | some x =>
    refine ((takes_names s).map fun ns hns => ?_).congr (by simp)
    have hreport :=
      Moves.report h (if ((ns.get? x).bind (·.linkage)).isSome then [.clashingImport] else [])
    have hset :=
      hreport.trans (.setNames hreport.sound hns (contains_insert ns x ⟨none, some .imported⟩))
    exact hset.trans (.add hset.sound trivial)

theorem Moves.addCommand (h : Sound s) {r : Draft} (hr : r.Readable) :
    Moves s (s.addCommand r) [] [] true := by
  unfold State.addCommand
  cases hfill : s.fill r with
  | ok r' => exact .add h (hr.fill hfill)
  | error x => exact (Moves.report h _).trans (.add (Moves.report h _).sound hr)

theorem tells_noteModified (h : Sound s) (hrecord : s.drafts ≠ []) (ops : List Operand)
    (hops : ¬ mute → ops.all Operand.hasText = true) : Tells mute (fun s' =>
    Moves s s' [] (if Addressing.ofOperands ops = .direct then ops.map Operand.text else []) false)
      (s.noteModified ops) := by
  unfold noteModified
  split
  · split
    · refine ⟨⟨h.header, h.readable, h.places, fun hnil => absurd hnil hrecord, h.unnamed⟩, rfl,
        Iff.rfl, by simp [IsMet], ?_,
        by simp⟩
      simp [Function.comp_def]
    · next htext => exact ⟨rfl, by_contra fun hmute => htext (hops hmute)⟩
  · exact .refl h

theorem takes_waitFor (h : Sound s) (hrecord : s.drafts ≠ []) (op : Operand) :
    Takes mute (¬ HasSection s ∧ op.referredName?.toList ≠ [])
      (fun s' => Moves s s' op.referredName?.toList [] false) (s.waitFor op) := by
  unfold State.waitFor
  cases hx : op.referredName? with
  | none => exact ⟨by simp, .refl h⟩
  | some x =>
    refine ((takes_names s).map fun ns hns => ?_).congr (by simp)
    split
    · next hmet =>
      exact (Moves.refl h).meet (List.forall_mem_singleton.2 ((isMet_iff hns x).2 hmet))
    · have hset : Moves s (s.setNames (ns.insert x ⟨none, none⟩)) [x] [] false :=
        .setNames h hns (contains_insert ns x _)
      exact hset.trans (.wait hset.sound hrecord x)

theorem takes_waitForAll (h : Sound s) (hrecord : s.drafts ≠ []) (ops : List Operand) :
    Takes mute (¬ HasSection s ∧ ops.filterMap Operand.referredName? ≠ [])
      (fun s' => Moves s s' (ops.filterMap Operand.referredName?) [] false) (s.waitForAll ops) := by
  induction ops generalizing s with
  | nil => exact ⟨by simp, .refl h⟩
  | cons op ops ih =>
    have hbind : s.waitForAll (op :: ops) = (s.waitFor op).bind (·.waitForAll ops) := by
      rw [State.waitForAll]
      cases s.waitFor op <;> rfl
    have hnames : (op :: ops).filterMap Operand.referredName? =
        op.referredName?.toList ++ ops.filterMap Operand.referredName? := by
      cases hx : op.referredName? with
      | none => exact List.filterMap_cons_none hx
      | some x => exact List.filterMap_cons_some hx
    have hrest : ∀ s', Moves s s' op.referredName?.toList [] false →
        Takes mute (¬ HasSection s ∧ ops.filterMap Operand.referredName? ≠ [])
          (fun s'' => Moves s s'' (op.referredName?.toList ++ ops.filterMap Operand.referredName?)
            [] false)
          (s'.waitForAll ops) := by
      intro s' hs'
      have hrecord' : s'.drafts ≠ [] := fun hnil => hrecord (hs'.records.1 hnil).1
      refine ((ih hs'.sound hrecord').imp fun s'' hs'' => hs'.trans hs'').congr ?_
      rw [hs'.opened]
    rw [hbind, hnames]
    refine ((takes_waitFor h hrecord op).bind hrest).congr ?_
    rw [← and_or_left, ne_eq, ne_eq, ne_eq, List.append_eq_nil_iff, not_and_or]

theorem takes_commandLine (h : Sound s) (use : NameUse) {op : Operation}
    (hst : Statement.ofMnemonic .sectioned table l.mnemonic = .command op)
    (hl : ∀ o ∈ l.operands, o.Legible) :
    Takes (vast ≤ l.weight .sectioned table)
      (¬ HasSection s ∧ l.operands.filterMap Operand.referredName? ≠ [])
        (fun s' => Moves s s' (l.operands.filterMap Operand.referredName?) (looksUp table l)
          (leavesRecord .sectioned table l))
      (s.commandLine use op l) := by
  have hlooks : looksUp table l = if Addressing.ofOperands l.operands = .direct
      then l.operands.map Operand.text else [] := by
    rw [looksUp, hst]
  have hproblems := tells_commandProblems hst hl s.counter
  have htexts : ¬ vast ≤ l.weight .sectioned table → l.operands.all Operand.hasText = true := by
    intro hlight
    refine List.all_eq_true.2 fun o ho => hasText_of_constant ?_
    have := natAbs_constant_le .sectioned table ho
    omega
  obtain ⟨field, hfield⟩ :=
    inOnePass_isOk (d := dialect) (scope_absent h.unnamed (s.counter + op.size)) hl op.size
  rw [hlooks, leavesRecord_of_command hst]
  unfold State.commandLine
  dsimp only
  rw [hfield]
  cases hps : commandProblems .sectioned s.counter l.mnemonic op.size l.operands with
  | error x =>
    rw [hps] at hproblems
    exact .inl hproblems
  | ok ps =>
    have hreport := Moves.report h ps
    have hadd := hreport.trans (Moves.addCommand hreport.sound
      (r := .code s.counter op.size (some (codeByte op.opcode l.operands)) l.operands) hl)
    have hnote :=
      tells_noteModified hadd.sound (fun hnil => by simpa using (hadd.records.1 hnil).2)
        l.operands htexts
    dsimp only
    cases hmodified : noteModified _ l.operands with
    | error x =>
      rw [hmodified] at hnote
      exact .inl hnote
    | ok s₁ =>
      rw [hmodified] at hnote
      have hall := hadd.trans hnote
      have hrecord : s₁.drafts ≠ [] := fun hnil => by simpa using (hall.records.1 hnil).2
      have hmove := Moves.moveTo hall.sound (s.counter + op.size)
      have hends := hall.trans (hmove.trans (.report hmove.sound (nameUseProblems use l.operands)))
      refine ((takes_waitForAll hends.sound hrecord l.operands).imp fun s' hs' => ?_).congr ?_
      · simpa using hends.trans hs'
      · rw [hends.opened]

theorem takes_bodyLine (h : Sound s) (use : NameUse) (hl : ∀ o ∈ l.operands, o.Legible)
    (hline : l.mnemonic ≠ "START" ∧ l.mnemonic ≠ "CSECT" ∧ l.mnemonic ≠ "END") :
    Takes (vast ≤ l.weight .sectioned table) (¬ HasSection s ∧ bodyNames table l ≠ [])
      (fun s' => Moves s s' (bodyNames table l) (looksUp table l) (leavesRecord .sectioned table l))
      (s.bodyLine use (Statement.ofMnemonic .sectioned table l.mnemonic) l) := by
  unfold State.bodyLine bodyNames
  cases hst : Statement.ofMnemonic .sectioned table l.mnemonic with
  | start => exact absurd ((Statement.ofMnemonic_eq_start_iff _ _ _).1 hst) hline.1
  | newSection => exact absurd ((Statement.ofMnemonic_eq_newSection_iff _ _).1 hst) hline.2.1
  | finish => exact absurd ((Statement.ofMnemonic_eq_finish_iff _ _ _).1 hst) hline.2.2
  | storage kind =>
    rw [looksUp_eq_nil (by simp [hst])]
    exact (tells_storageLine h hst).takes (by simp)
  | exportName =>
    rw [looksUp_eq_nil (by simp [hst])]
    exact takes_exportLine h hst
  | importName =>
    rw [looksUp_eq_nil (by simp [hst])]
    exact takes_importLine h hst
  | command op => exact takes_commandLine h use hst hl
  | unknown =>
    rw [looksUp_eq_nil (by simp [hst]), leavesRecord_of_unknown hst]
    exact ⟨by simp, .report h _⟩

/-! ## Closing a section -/

theorem takes_modificationDrafts (s : State) (ms : List (Int × String)) :
    Takes mute (∃ t ∈ ms.map Prod.snd, ¬ IsMet s t)
      (fun ds => ds.length = ms.length ∧ ∀ r ∈ ds, r.Readable) (s.modificationDrafts ms) := by
  induction ms with
  | nil => exact ⟨by simp, rfl, by simp⟩
  | cons m ms ih =>
    obtain ⟨a, t⟩ := m
    rw [modificationDrafts]
    cases hns : s.names with
    | error x =>
      have hunmet : ¬ IsMet s t := by
        rintro ⟨ns, hget, -⟩
        exact not_hasSection_of_error hns ⟨ns, hget⟩
      exact .inr ⟨t, by simp, hunmet⟩
    | ok ns =>
      dsimp only
      cases ht : ns.get? t with
      | none => exact .inr ⟨t, by simp, by rw [isMet_iff hns, OrderedMap.contains, ht]; simp⟩
      | some e =>
        have hmet : IsMet s t := by rw [isMet_iff hns, OrderedMap.contains, ht]; rfl
        refine (ih.map fun ds hds =>
          ⟨congrArg (· + 1) hds.1, List.forall_mem_cons.2 ⟨trivial, hds.2⟩⟩).congr ?_
        simp [hmet]

theorem takes_writeModifications (h : Sound s) :
    Takes mute (∃ t ∈ s.modified.map Prod.snd, ¬ IsMet s t) (fun s' => Sound s' ∧ s'.modified = [] ∧
      s'.ended = s.ended ∧ (s'.drafts = [] ↔ s.drafts = [])) s.writeModifications := by
  refine (takes_modificationDrafts s s.modified).map fun ds ⟨hlength, hds⟩ => ⟨?_, rfl, rfl, ?_⟩
  · exact
      { header := by
          have := h.header
          simp only [List.length_append]
          omega
        readable := List.forall_mem_append.2 ⟨h.readable, hds⟩
        places := fun x place hplace => by
          obtain ⟨i, rfl, hi⟩ := h.places x place hplace
          exact ⟨i, rfl, by simp only [List.length_append]; omega⟩
        noted := fun _ => rfl
        unnamed := h.unnamed }
  · refine ⟨fun hnil => (List.append_eq_nil_iff.1 hnil).1, fun hnil => ?_⟩
    have hnone : ds = [] := by simpa [h.noted hnil] using hlength
    simp [hnil, hnone]

theorem takes_writeLength (h : Sound s) :
    Takes mute (s.drafts = []) (fun s' => Moves s s' [] [] false) s.writeLength := by
  unfold writeLength changeAt
  dsimp only [Option.getD_some]
  cases hr : s.drafts[s.headerPlace]? with
  | none =>
    rw [List.getElem?_eq_none_iff] at hr
    have hheader := h.header
    exact .inr (List.length_eq_zero_iff.1 (by omega))
  | some r =>
    exact ⟨fun hnil => by simp [hnil] at hr,
      .set h _ ((h.readable r (List.mem_of_getElem? hr)).setLength _)⟩

theorem takes_endLine (h : Sound s) (l : Line) :
    Takes mute (s.drafts = [] ∨ ∃ t ∈ s.modified.map Prod.snd, ¬ IsMet s t)
      (fun s' => s'.ended = true ∧ ∀ r ∈ s'.drafts, r.Readable) (s.endLine l) := by
  generalize hmarked :
    ({ s.report (if isOptionalNumber l.operands then [] else [.badEndOperand]) with
      ended := true } : State) = marked
  have hbind : s.endLine l = marked.writeLength.bind fun s =>
      (s.checkEntry l).writeModifications.map fun s =>
        s.reportWaiting.add (.finish (s.entryPoint l)) := by
    rw [State.endLine, hmarked]
    cases marked.writeLength <;> rfl
  have hsound : Sound marked := hmarked ▸ ⟨h.header, h.readable, h.places, h.noted, h.unnamed⟩
  have hended : marked.ended = true := hmarked ▸ rfl
  have hsame : marked.drafts = s.drafts ∧ marked.modified = s.modified ∧ ∀ x, IsMet marked x ↔
      IsMet s x :=
    hmarked ▸ ⟨rfl, rfl, fun _ => Iff.rfl⟩
  rw [hbind, ← hsame.1, ← hsame.2.1]
  simp only [← hsame.2.2]
  refine (takes_writeLength hsound).bind fun s₁ hs₁ => ?_
  have hentry :=
    hs₁.trans (Moves.report hs₁.sound
      (if s₁.visited.contains (s₁.entryPoint l) then [] else [.badEntryPoint]))
  refine ((takes_writeModifications hentry.sound).map fun s₂ hs₂ => ?_).congr ?_
  · obtain ⟨hsound₂, -, hended₂, -⟩ := hs₂
    refine ⟨(hended₂.trans hentry.ended).trans hended, ?_⟩
    exact List.forall_mem_append.2 ⟨hsound₂.readable, List.forall_mem_singleton.2 trivial⟩
  · simp only [hentry.texts, hentry.met, List.append_nil, List.not_mem_nil, or_false]

/-- A section is begun with some commands noted: it has met no name, and its header is a record. -/
structure Begun (ms : List (Int × String)) (s : State) : Prop where
  sound : Sound s
  going : s.ended = false
  opened : HasSection s
  met : ∀ x, ¬ IsMet s x
  noted : s.modified = ms
  records : s.drafts ≠ []

theorem begun_begin (h : Sound s) (hgoing : s.ended = false) {ms : List (Int × String)}
    (hms : s.modified = ms) {label : Option String} (hlabel : label ≠ some "") :
    Begun ms (s.begin label) where
  sound :=
    { header := by simp [State.begin, State.add, State.setNames]
      readable := List.forall_mem_append.2 ⟨h.readable, List.forall_mem_singleton.2 trivial⟩
      places := fun x place hplace => by
        obtain ⟨i, rfl, hi⟩ := h.places x place hplace
        exact ⟨i, rfl, by
          simp only [State.begin, State.add, State.setNames, List.length_append]; omega⟩
      noted := fun hnil => absurd hnil (by simp [State.begin, State.add, State.setNames])
      unnamed := by simp [State.begin, State.add, State.setNames, hlabel, h.unnamed] }
  going := hgoing
  opened := by simp [HasSection, State.begin, State.add, State.setNames]
  met x := by simp [IsMet, State.begin, State.add, State.setNames, OrderedMap.contains]
  noted := hms
  records := by simp [State.begin, State.add, State.setNames]

theorem begun_startLine (h : Sound s) (hgoing : s.ended = false) (hlabel : l.label ≠ some "") :
    Begun s.modified (s.startLine l) := by
  unfold State.startLine
  refine begun_begin ?_ ?_ ?_ hlabel
  · exact ⟨h.header, h.readable, h.places, h.noted, h.unnamed⟩
  · exact (s.ended_commence _ _ l).trans hgoing
  · rfl

theorem begun_nextSection (h : Sound s) (hgoing : s.ended = false) (hlabel : l.label ≠ some "") :
    Begun s.modified ((s.checkEntry l).nextSection l) := by
  have hadd :=
    (Moves.add
      (Moves.report h (if s.visited.contains (s.entryPoint l) then [] else [.badEntryPoint])).sound
        (r := .finish ((s.checkEntry l).entryPoint l)) trivial).sound
  unfold nextSection
  refine begun_begin ?_ ?_ ?_ hlabel
  · exact ⟨hadd.header, hadd.readable, hadd.places, hadd.noted, hadd.unnamed⟩
  · exact hgoing
  · rfl

theorem takes_sectionLine (h : Sound s) (hgoing : s.ended = false) (hlabel : l.label ≠ some "") :
    Takes mute (s.drafts = [] ∨ ∃ t ∈ s.modified.map Prod.snd, ¬ IsMet s t) (Begun [])
      (s.sectionLine l) := by
  generalize hreported : s.report ((if isOptionalNumber l.operands then [] else [.badSection]) ++
    (if l.name?.isNone then [.unnamedSection] else [])) = reported
  have hbind : s.sectionLine l = reported.writeModifications.bind fun s =>
      s.reportWaiting.writeLength.map fun s => (s.checkEntry l).nextSection l := by
    rw [State.sectionLine, hreported]
    cases reported.writeModifications <;> rfl
  have hreport : Moves s reported [] [] false := hreported ▸ .report h _
  have hsame : reported.drafts = s.drafts ∧ reported.modified = s.modified ∧ ∀ x, IsMet reported x ↔
      IsMet s x :=
    hreported ▸ ⟨rfl, rfl, fun _ => Iff.rfl⟩
  rw [hbind, or_comm, ← hsame.1, ← hsame.2.1]
  simp only [← hsame.2.2]
  refine (takes_writeModifications hreport.sound).bind fun s₁ hs₁ => ?_
  obtain ⟨hsound, hnoted, hended, hempty⟩ := hs₁
  have hwaiting : Sound s₁.reportWaiting :=
    ⟨hsound.header, hsound.readable, hsound.places, hsound.noted, hsound.unnamed⟩
  refine ((takes_writeLength hwaiting).map fun s₂ hs₂ => ?_).congr hempty
  have hnone : s₂.modified = [] := by simpa [State.reportWaiting, hnoted] using hs₂.texts
  rw [← hnone]
  exact begun_nextSection hs₂.sound (((hs₂.ended.trans hended).trans hreport.ended).trans hgoing)
    hlabel

/-! ## Lines and runs -/

/-- The pass after lines. -/
structure Kept (table : OpTable) (pre : List Line) (s : State) : Prop where
  sound : Sound s
  going : s.ended = false
  opened : HasSection s ↔ Opened pre
  met : ∀ x, IsMet s x ↔ x ∈ (openLines pre).flatMap (mentions table)
  texts : s.modified.map Prod.snd = lookups table pre
  records : s.drafts = [] ↔ recordLines .sectioned table pre = []

theorem kept_start (table : OpTable) : Kept table [] .start where
  sound := ⟨by decide, nofun, fun x place hplace => absurd hplace (by simp [State.start]),
    fun _ => rfl, rfl⟩
  going := rfl
  opened := by simp [HasSection, Opened, State.start]
  met x := by simp [IsMet, State.start, openLines]
  texts := rfl
  records := by simp [State.start, recordLines]

theorem Kept.expectStarted (h : Kept table pre s) : Kept table pre s.expectStarted := by
  unfold State.expectStarted
  split
  · exact h
  · exact ⟨(Moves.report h.sound _).sound, h.going, h.opened, h.met, h.texts, h.records⟩

theorem lookups_concat (hl : l.mnemonic ≠ "CSECT") :
    lookups table (pre ++ [l]) = lookups table pre ++ looksUp table l := by
  rw [lookups, List.rtakeWhile_concat_pos _ _ _ (by simpa using hl), List.flatMap_append,
    List.flatMap_singleton]
  rfl

theorem Kept.next (h : Kept table pre s) (hstart : l.mnemonic ≠ "START")
    (hsection : l.mnemonic ≠ "CSECT")
    (hs : Moves s s' (mentions table l) (looksUp table l) (leavesRecord .sectioned table l)) :
    Kept table (pre ++ [l]) s' where
  sound := hs.sound
  going := hs.ended.trans h.going
  opened := by
    rw [hs.opened, h.opened]
    simp [Opened, or_and_right, exists_or, hstart, hsection]
  met x := by
    have hopen : openLines (pre ++ [l]) = openLines pre ++ [l] :=
      List.rtakeWhile_concat_pos _ _ _ (by simp [hstart, hsection])
    rw [hs.met, h.met, hopen, List.flatMap_append, List.mem_append, List.flatMap_singleton]
  texts := by rw [hs.texts, h.texts, lookups_concat hsection]
  records := by
    rw [hs.records, h.records, recordLines_concat, List.append_eq_nil_iff]
    split <;> simp [*]

theorem kept_of_begun {ms : List (Int × String)} (hl : l.mnemonic = "START" ∨ l.mnemonic = "CSECT")
    (hs : Begun ms s) (htexts : ms.map Prod.snd = lookups table (pre ++ [l])) :
    Kept table (pre ++ [l]) s where
  sound := hs.sound
  going := hs.going
  opened := iff_of_true hs.opened ⟨l, by simp, hl⟩
  met x := by
    have hopen : openLines (pre ++ [l]) = [] :=
      List.rtakeWhile_concat_neg _ _ _ (by obtain hl | hl := hl <;> simp [hl])
    simp [hopen, hs.met x]
  texts := by rw [hs.noted, htexts]
  records := by
    have hleaves : leavesRecord .sectioned table l = true := by
      obtain hl | hl := hl
      · rw [leavesRecord, (Statement.ofMnemonic_eq_start_iff .sectioned table _).2 hl]
      · rw [leavesRecord, (Statement.ofMnemonic_eq_newSection_iff table _).2 hl]
    simp [recordLines_concat, hleaves, hs.records]

theorem view_isOk (h : ∀ r ∈ s.drafts, r.Readable) : ∃ v, s.view = .ok v := by
  obtain ⟨os, hos⟩ := Draft.exists_records (d := dialect) rfl h
  exact ⟨_, by rw [State.view, hos]; rfl⟩

theorem line_eq_bind {use : NameUse} (s : State) (hstart : l.mnemonic ≠ "START")
    (hsection : l.mnemonic ≠ "CSECT") :
    s.line table use l =
      (s.expectStarted.noteLabel l).bind fun s' =>
        s'.bodyLine use (Statement.ofMnemonic .sectioned table l.mnemonic) l := by
  have hst := mt (Statement.ofMnemonic_eq_start_iff .sectioned table _).1 hstart
  have hst' := mt (Statement.ofMnemonic_eq_newSection_iff table _).1 hsection
  unfold State.line
  split
  · contradiction
  · contradiction
  · cases s.expectStarted.noteLabel l <;> rfl

/-- What is left to show of a state that a line leads to. -/
def Stepped (table : OpTable) (pre : List Line) (l : Line) (s : State) : Prop :=
  (∃ v, s.view = .ok v) ∧ (l.mnemonic ≠ "END" → Kept table (pre ++ [l]) s) ∧
    (l.mnemonic = "END" → s.ended = true ∧ ∃ v, s.close.view = .ok v)

theorem Kept.stepped (h : Kept table (pre ++ [l]) s) (hend : l.mnemonic ≠ "END") :
    Stepped table pre l s :=
  ⟨view_isOk h.sound.readable, fun _ => h, fun heq => absurd heq hend⟩

theorem Kept.takes_start (h : Kept table pre s) (use : NameUse) (hl : Readable l)
    (hstart : l.mnemonic = "START") :
    Takes (Overweight .sectioned table pre l) (Halts table pre l) (Stepped table pre l)
      (s.line table use l) := by
  have hst := (Statement.ofMnemonic_eq_start_iff .sectioned table _).2 hstart
  have hkept : Kept table (pre ++ [l]) (s.startLine l) := by
    refine kept_of_begun (.inl hstart) (begun_startLine h.sound h.going hl.label) ?_
    rw [h.texts, lookups_concat (by simp [hstart]), looksUp_eq_nil (by simp [hst]), List.append_nil]
  rw [State.line, hst]
  exact ⟨by simp [Halts, mentions, hstart], hkept.stepped (by simp [hstart])⟩

theorem Kept.takes_section (h : Kept table pre s) (use : NameUse) (hl : Readable l)
    (hsection : l.mnemonic = "CSECT") :
    Takes (Overweight .sectioned table pre l) (Halts table pre l) (Stepped table pre l)
      (s.line table use l) := by
  have hkept := h.expectStarted
  rw [State.line, (Statement.ofMnemonic_eq_newSection_iff table _).2 hsection]
  refine ((takes_sectionLine hkept.sound hkept.going hl.label).imp fun s' hs' => ?_).congr ?_
  · have hnext : Kept table (pre ++ [l]) s' := by
      refine kept_of_begun (.inr hsection) hs' ?_
      rw [lookups, List.rtakeWhile_concat_neg _ _ _ (by simp [hsection])]
      rfl
    exact hnext.stepped (by simp [hsection])
  · rw [hkept.records, hkept.texts]
    simp only [hkept.met]
    simp [Halts, mentions, hsection]

theorem Kept.takes_end (h : Kept table pre s) (use : NameUse) (hend : l.mnemonic = "END") :
    Takes (Overweight .sectioned table pre l) (Halts table pre l) (Stepped table pre l)
      (s.line table use l) := by
  have hst := (Statement.ofMnemonic_eq_finish_iff .sectioned table _).2 hend
  have hkept := h.expectStarted
  have hnone : bodyNames table l = [] := by rw [bodyNames, hst]
  have hmentions : mentions table l = l.name?.toList := by simp [mentions, hnone, hend]
  have hbody : ∀ s₁, Moves s.expectStarted s₁ l.name?.toList [] false →
      Takes (Overweight .sectioned table pre l) (recordLines .sectioned table pre = [] ∨
        ∃ t ∈ lookups table pre, t ∉ (openLines pre ++ [l]).flatMap (mentions table))
      (fun s' => s'.ended = true ∧ ∀ r ∈ s'.drafts, r.Readable) (s₁.endLine l) := by
    intro s₁ hs₁
    refine (takes_endLine hs₁.sound l).congr ?_
    rw [hs₁.records, hs₁.texts, hkept.records, hkept.texts]
    simp only [hs₁.met, hkept.met]
    simp [hmentions]
  rw [line_eq_bind s (by simp [hend]) (by simp [hend]), hst]
  refine (((takes_noteLabel hkept.sound l).bind hbody).imp fun s' hs' => ?_).congr ?_
  · exact ⟨view_isOk hs'.2, fun hne => absurd hend hne,
      fun _ => ⟨hs'.1, view_isOk (s := s'.close) hs'.2⟩⟩
  · rw [hkept.opened, ← hmentions, Halts, or_iff_right (a := l.mnemonic = "CSECT") (by simp [hend]),
      and_iff_right hend]

theorem Kept.takes_body (h : Kept table pre s) (use : NameUse) (hl : Readable l)
    (hline : l.mnemonic ≠ "START" ∧ l.mnemonic ≠ "CSECT" ∧ l.mnemonic ≠ "END") :
    Takes (Overweight .sectioned table pre l) (Halts table pre l) (Stepped table pre l)
      (s.line table use l) := by
  have hkept := h.expectStarted
  have hmentions : mentions table l = l.name?.toList ++ bodyNames table l := by
    simp [mentions, hline]
  have hbody : ∀ s₁, Moves s.expectStarted s₁ l.name?.toList [] false →
      Takes (Overweight .sectioned table pre l)
        (¬ HasSection s.expectStarted ∧ bodyNames table l ≠ [])
      (fun s' => Moves s.expectStarted s' (mentions table l) (looksUp table l)
        (leavesRecord .sectioned table l))
      (s₁.bodyLine use (Statement.ofMnemonic .sectioned table l.mnemonic) l) := by
    intro s₁ hs₁
    rw [hmentions, ← hs₁.opened]
    exact ((takes_bodyLine hs₁.sound use hl.legible hline).imp fun s' hs' => hs₁.trans hs').mono
      overweight_of_weight
  rw [line_eq_bind s hline.1 hline.2.1]
  refine (((takes_noteLabel hkept.sound l).bind hbody).imp fun s' hs' => ?_).congr ?_
  · exact (hkept.next hline.1 hline.2.1 hs').stepped hline.2.2
  · have hcloses : ¬ (l.mnemonic = "CSECT" ∨ l.mnemonic = "END") := not_or.2 hline.2
    rw [hkept.opened, ← and_or_left, Halts, hmentions, ne_eq, ne_eq, ne_eq, List.append_eq_nil_iff,
      not_and_or]
    exact (or_iff_left fun hhalts => hcloses hhalts.1).symm

/-- A line is taken in if and only if it does not halt the pass, or is overweight. -/
theorem breaking (table : OpTable) (use : NameUse) :
    (pass table use).Breaking Readable (Kept table) (Overweight .sectioned table)
      (Halts table) where
  going h := h.going
  shown {pre s} h := view_isOk (s := s.close) h.sound.readable
  step {pre s n l} h hl := by
    by_cases hstart : l.mnemonic = "START"
    · exact h.takes_start use hl hstart
    by_cases hsection : l.mnemonic = "CSECT"
    · exact h.takes_section use hl hsection
    by_cases hend : l.mnemonic = "END"
    · exact h.takes_end use hend
    · exact h.takes_body use hl ⟨hstart, hsection, hend⟩

end Assembler.OnePass.Sectioned
