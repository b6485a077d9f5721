import Mathlib.Data.List.DropRight
import Assembler.OnePass.Absolute
import Assembler.OnePass.Sectioned
import Assembler.Proofs.Magnitudes
import Assembler.Proofs.RelocatablePass

/-! # Runs that break off

One pass goes on after problems, and its tables may then be such that a later line cannot be taken
in: the run breaks off with a fault.  Whether it does can be told from the lines alone.
`Pass.Breaking` is what a layout has to show for that, line by line, and `Pass.Breaking.fault_iff`
is the statement for whole runs.  The rest is about what layouts have in common: the problems and
fields of commands, the lines that leave records, and the names that are waited for in flat
programs. -/

namespace Assembler.OnePass
open Assembler
set_option autoImplicit false

/-- A computation gives a value as described, or is mute: a number has no decimal form. -/
def Tells {α : Type} (mute : Prop) (P : α → Prop) : Except Fault α → Prop
  | .ok a => P a
  | .error x => x = .noDecimal ∧ mute

/-- A computation fails if and only if it is halted, unless it is mute; it gives a value as
described otherwise. -/
def Takes {α : Type} (mute halts : Prop) (P : α → Prop) : Except Fault α → Prop
  | .ok a => ¬ halts ∧ P a
  | .error x => x = .noDecimal ∧ mute ∨ halts

section

variable {α β : Type} {mute mute' halts halts' : Prop} {P P' : α → Prop} {Q : β → Prop}
  {r : Except Fault α}

theorem Tells.map (h : Tells mute P r) {f : α → β} (hf : ∀ a, P a → Q (f a)) :
    Tells mute Q (r.map f) := by
  cases r with
  | ok a => exact hf a h
  | error x => exact h

theorem Tells.imp (h : Tells mute P r) (hP : ∀ a, P a → P' a) : Tells mute P' r := by
  cases r with
  | ok a => exact hP a h
  | error x => exact h

theorem Tells.takes (h : Tells mute P r) (hn : ¬ halts) : Takes mute halts P r := by
  cases r with
  | ok a => exact ⟨hn, h⟩
  | error x => exact .inl h

theorem Takes.tells (h : Takes mute halts P r) (hn : ¬ halts) : Tells mute P r := by
  cases r with
  | ok a => exact h.2
  | error x => exact h.resolve_right hn

theorem Takes.imp (h : Takes mute halts P r) (hP : ∀ a, P a → P' a) : Takes mute halts P' r := by
  cases r with
  | ok a => exact ⟨h.1, hP a h.2⟩
  | error x => exact h

theorem Takes.map (h : Takes mute halts P r) {f : α → β} (hf : ∀ a, P a → Q (f a)) :
    Takes mute halts Q (r.map f) := by
  cases r with
  | ok a => exact ⟨h.1, hf a h.2⟩
  | error x => exact h

theorem Takes.mono (h : Takes mute halts P r) (hmute : mute → mute') : Takes mute' halts P r := by
  cases r with
  | ok a => exact h
  | error x => exact h.imp_left (And.imp_right hmute)

theorem Takes.congr (h : Takes mute halts P r) (hh : halts ↔ halts') : Takes mute halts' P r := by
  rwa [← propext hh]

theorem Takes.bind (h : Takes mute halts P r) {f : α → Except Fault β}
    (hf : ∀ a, P a → Takes mute halts' Q (f a)) :
    Takes mute (halts ∨ halts') Q (r.bind f) := by
  cases r with
  | error x => exact h.imp_right Or.inl
  | ok a =>
    obtain ⟨hn, ha⟩ := h
    have hnext := hf a ha
    change Takes mute _ Q (f a)
    cases hr : f a with
    | error x =>
      rw [hr] at hnext
      exact Or.imp_right Or.inr hnext
    | ok b =>
      rw [hr] at hnext
      exact ⟨not_or.2 ⟨hn, hnext.1⟩, hnext.2⟩

end

/-! ## From lines to runs -/

section

variable {σ : Type} {p : Pass σ} {Good : Line → Prop} {Inv : List Line → σ → Prop}
  {Mute Halts : List Line → Line → Prop}

/-- A pass takes in a good line behind the lines before it unless that line halts it or makes it
mute.  `Inv pre s` says that the pass is in a state `s` after the lines `pre`, the end directive not
among them. -/
structure Pass.Breaking (p : Pass σ) (Good : Line → Prop) (Inv : List Line → σ → Prop)
    (Mute Halts : List Line → Line → Prop) :
    Prop where
  going : ∀ {pre s}, Inv pre s → p.ended s = false
  shown : ∀ {pre s}, Inv pre s → ∃ v, p.view (p.close s) = .ok v
  step : ∀ {pre s n l}, Inv pre s → Good l →
    Takes (Mute pre l) (Halts pre l) (fun s' => (∃ v, p.view s' = .ok v) ∧
    (l.mnemonic ≠ "END" → Inv (pre ++ [l]) s') ∧
      (l.mnemonic = "END" → p.ended s' = true ∧ ∃ v, p.view (p.close s') = .ok v)) (p.step s n l)

theorem Pass.fault_of_ended {s : σ} (he : p.ended s = true) (hv : ∃ v, p.view (p.close s) = .ok v)
    (n : Nat) (ls : List Line) :
    (p.trace s n ls).fault = none := by
  obtain ⟨v, hv⟩ := hv
  cases ls with
  | nil => rw [trace, hv]; rfl
  | cons l ls => rw [trace, if_pos he, hv]; rfl

theorem Pass.fault_of_step {s s' : σ} (he : p.ended s = false) {n : Nat} {l : Line}
    (hs : p.step s n l = .ok s') (hv : ∃ v, p.view s' = .ok v) (ls : List Line) :
    (p.trace s n (l :: ls)).fault = (p.trace s' (n + 1) ls).fault := by
  obtain ⟨v, hv⟩ := hv
  rw [trace, if_neg (by simp [he]), hs]
  simp only
  split
  · rw [hv]; rfl
  · rfl

theorem Pass.fault_of_error {s : σ} (he : p.ended s = false) {n : Nat} {l : Line} {x : Fault}
    (hs : p.step s n l = .error x) (ls : List Line) : (p.trace s n (l :: ls)).fault = some x := by
  rw [trace, if_neg (by simp [he]), hs]
  rfl

open Relocatable in
/-- A run breaks off if and only if a line up to the end directive halts it, or makes it mute. -/
theorem Pass.Breaking.fault_iff (h : p.Breaking Good Inv Mute Halts) {done : List Line} {s : σ}
    (hs : Inv done s) (n : Nat) {ls : List Line} (hls : ∀ l ∈ ls, Good l) :
    (p.trace s n ls).fault ≠ none ↔
      (∃ pre l post, upToEnd ls = pre ++ l :: post ∧ Halts (done ++ pre) l) ∨
        (p.trace s n ls).fault = some .noDecimal ∧ ∃ pre l post, upToEnd ls = pre ++ l :: post ∧
        Mute (done ++ pre) l := by
  induction ls generalizing done s n with
  | nil =>
    have hfault : (p.trace s n []).fault = none := by
      obtain ⟨v, hv⟩ := h.shown hs
      rw [trace, hv]
      rfl
    simp [hfault, upToEnd]
  | cons l ls ih =>
    have he := h.going hs
    have htakes := h.step (n := n) hs (hls l List.mem_cons_self)
    cases hstep : p.step s n l with
    | error x =>
      have hfault := p.fault_of_error he hstep ls
      have hleft : (p.trace s n (l :: ls)).fault ≠ none := by simp [hfault]
      have hcut : upToEnd (l :: ls) = [] ++ l :: (upToEnd (l :: ls)).tail := by
        rw [upToEnd]
        split <;> rfl
      refine ⟨fun _ => ?_, fun _ => hleft⟩
      rw [hstep] at htakes
      obtain ⟨rfl, hmute⟩ | hhalts := htakes
      · exact .inr ⟨hfault, [], l, _, hcut, by rwa [List.append_nil]⟩
      · exact .inl ⟨[], l, _, hcut, by rwa [List.append_nil]⟩
    | ok s' =>
      rw [hstep] at htakes
      obtain ⟨hnot, hview, hnext, hend⟩ := htakes
      rw [p.fault_of_step he hstep hview, upToEnd]
      by_cases hl : l.mnemonic = "END"
      · obtain ⟨he', hv'⟩ := hend hl
        rw [if_pos hl, p.fault_of_ended he' hv']
        refine ⟨fun hne => absurd rfl hne, ?_⟩
        rintro (⟨pre, k, post, hcut, hhalts⟩ | ⟨hdecimal, -⟩)
        · obtain ⟨rfl, hcut⟩ | ⟨pre', rfl, hcut⟩ := List.cons_eq_append_iff.1 hcut
          · obtain ⟨rfl, -⟩ := List.cons.inj hcut
            exact absurd (by simpa using hhalts) hnot
          · simp at hcut
        · cases hdecimal
      · have hcut : ∀ {pre k post}, upToEnd ls = pre ++ k :: post →
            l :: upToEnd ls = (l :: pre) ++ k :: post := fun hrest => by
          rw [hrest]
          rfl
        rw [if_neg hl]
        constructor
        · intro hfault
          obtain ⟨pre, k, post, hrest, hhalts⟩ | ⟨hdecimal, pre, k, post, hrest, hmute⟩ :=
            (ih (hnext hl) (n + 1) fun k hk => hls k (List.mem_cons_of_mem _ hk)).1 hfault
          · exact .inl ⟨l :: pre, k, post, hcut hrest, by simpa using hhalts⟩
          · exact .inr ⟨hdecimal, l :: pre, k, post, hcut hrest, by simpa using hmute⟩
        · rintro (⟨pre, k, post, hcut, hhalts⟩ | ⟨hdecimal, -⟩)
          · obtain ⟨rfl, hcut⟩ | ⟨pre', rfl, hrest⟩ := List.cons_eq_append_iff.1 hcut
            · obtain ⟨rfl, -⟩ := List.cons.inj hcut
              exact absurd (by simpa using hhalts) hnot
            · refine (ih (hnext hl) (n + 1) fun k hk => hls k (List.mem_cons_of_mem _ hk)).2 ?_
              exact .inl ⟨pre', k, post, hrest, by simpa using hhalts⟩
          · simp [hdecimal]

end

/-! ## What a single line needs -/

/-- A line as it can be read: its strings have values, and its label is not empty. -/
structure Readable (l : Line) : Prop where
  legible : ∀ o ∈ l.operands, o.Legible
  label : l.label ≠ some ""

theorem formProblems_isOk {ops : List Operand} (hl : ∀ o ∈ ops, o.Legible) (layout : Layout)
    (m : String) (size : Int) :
    ∃ ps, formProblems layout m size ops = .ok ps := by
  have hstring : ∀ op (f : Int → List Problem), op ∈ ops → op.isString = true →
      ∃ ps, op.stringValue.map f = .ok ps := by
    intro op f hop hs
    obtain ⟨v, hv⟩ := hl op hop hs
    exact ⟨f v, by rw [hv]; rfl⟩
  unfold formProblems
  dsimp only
  repeat' split
  all_goals first
    | exact ⟨_, rfl⟩
    | exact hstring _ _ (List.mem_singleton.2 rfl) (by assumption)

theorem tells_worded {ps : List Problem} {mute : Prop} (h : ¬ mute → ∀ p ∈ ps, p.hasText = true) :
    Tells mute (fun _ => True) (Problem.worded ps) := by
  unfold Problem.worded
  split
  · trivial
  · next hps =>
    refine ⟨rfl, ?_⟩
    by_contra hmute
    exact hps (List.all_eq_true.2 (h hmute))

section

variable {layout : Layout} {table : OpTable} {l : Line}

/-- The problems of storage can be told unless the line is too heavy. -/
theorem tells_allotted {kind : Storage} {a : Int} {al : Allotment}
    (h : kind.allot a l.operands = .ok al) :
    Tells (vast ≤ l.weight layout table) (fun _ => True) (Problem.worded al.problems) := by
  refine tells_worded fun hlight => hasText_of_allot h fun _ v hv => ?_
  have hv : v.natAbs ≤ l.weight layout table := natAbs_constant_le layout table hv
  exact hasDecimal_of_lt_vast (by omega)

/-- A command with readable operands has its problems, unless the line is too heavy. -/
theorem tells_commandProblems {op : Operation}
    (hst : Statement.ofMnemonic layout table l.mnemonic = .command op)
      (hl : ∀ o ∈ l.operands, o.Legible) (counter : Int) :
        Tells (vast ≤ l.weight layout table) (fun _ => True)
          (commandProblems layout counter l.mnemonic op.size l.operands) := by
  obtain ⟨ps, hps⟩ := formProblems_isOk hl layout l.mnemonic op.size
  have hsize := natAbs_extent_le layout table l
  rw [extent_of_command hst] at hsize
  by_cases hdecimal : Text.hasDecimal op.size = true
  · rw [commandProblems, (operandProblems_eq_ok_iff ..).2 ⟨hdecimal, hps⟩]
    refine (tells_worded fun hlight => ?_).map fun _ _ => trivial
    refine hasText_of_formProblems hps hdecimal fun o ho => ?_
    have ho := natAbs_constant_le layout table ho
    exact hasDecimal_of_lt_vast (by omega)
  · rw [commandProblems, operandProblems, if_neg hdecimal]
    refine ⟨rfl, ?_⟩
    by_contra hlight
    exact hdecimal (hasDecimal_of_lt_vast (by omega))

end

theorem inOnePass_isOk {d : Dialect} {scope : Scope} {rd : Reading} {ops : List Operand}
    (hk : scope.Knows rd Fault.IsUndefinedName) (hl : ∀ o ∈ ops, o.Legible) (size : Int) :
    ∃ f, Field.inOnePass d scope size ops = .ok f := by
  unfold Field.inOnePass
  split <;> exact Field.pending_isOk hk hl _

/-! ## Drafts -/

namespace Draft

/-- The strings that are left in a draft have values. -/
def Readable : Draft → Prop
  | .code _ _ _ ops | .definition _ ops => ∀ o ∈ ops, o.Legible
  | _ => True

theorem Readable.record {d : Dialect} (hd : d.strategy = .onePass) {r : Draft} (h : r.Readable) :
    ∃ o, r.record d = .ok o := by
  have hfield : ∀ next size ops, (∀ o ∈ ops, Operand.Legible o) →
      ∃ f, Field.inOnePass d (bareScope d next) size ops = .ok f :=
    fun next size ops hl => inOnePass_isOk (bareScope_knows hd next) hl size
  cases r with
  | code a size byte ops =>
    obtain ⟨f, hf⟩ := hfield (size + a) size ops h
    exact ⟨_, by rw [Draft.record, hf]; rfl⟩
  | definition name ops =>
    obtain ⟨f, hf⟩ := hfield definitionSize definitionSize ops h
    exact ⟨_, by rw [Draft.record, hf]; rfl⟩
  | _ => exact ⟨_, rfl⟩

theorem exists_records {d : Dialect} (hd : d.strategy = .onePass) {rs : List Draft}
    (h : ∀ r ∈ rs, r.Readable) :
    ∃ os, records d rs = .ok os := by
  induction rs with
  | nil => exact ⟨[], rfl⟩
  | cons r rs ih =>
    obtain ⟨o, ho⟩ := (h r List.mem_cons_self).record hd
    obtain ⟨os, hos⟩ := ih fun q hq => h q (List.mem_cons_of_mem _ hq)
    exact ⟨o :: os, by rw [records, ho, hos]; rfl⟩

theorem Readable.setLength {r : Draft} (h : r.Readable) (n : Int) : (r.setLength n).Readable := by
  cases r <;> exact h

theorem readable_ofAllotment (a : Allotment) (counter : Int) :
    (ofAllotment a counter).Readable := by
  unfold ofAllotment
  split <;> trivial

theorem legible_of_settle {forgive : Fault → Bool} {scope : Scope} {op v : Operand}
    (hl : op.Legible) (h : settle forgive scope op = .ok v) : v.Legible := by
  unfold settle at h
  split at h
  · cases h; exact nofun
  · cases h; exact hl
  · split at h <;> cases h
    exact hl

theorem legible_of_settleAll {forgive : Fault → Bool} {scope : Scope} {ops vs : List Operand}
    (hl : ∀ o ∈ ops, o.Legible) (h : settleAll forgive scope ops = .ok vs) :
    ∀ v ∈ vs, v.Legible := by
  induction ops generalizing vs with
  | nil => cases h; simp
  | cons op ops ih =>
    rw [settleAll] at h
    split at h
    · cases h
    · next v hv =>
      obtain ⟨ws, hws, rfl⟩ := (map_eq_ok_iff _ _ _).1 h
      exact List.forall_mem_cons.2 ⟨legible_of_settle (hl op List.mem_cons_self) hv,
        ih (fun o ho => hl o (List.mem_cons_of_mem _ ho)) hws⟩

theorem Readable.fill {forgive : Fault → Bool} {scope : Int → Scope} {r r' : Draft} (h : r.Readable)
    (hfill : r.fill forgive scope = .ok r') : r'.Readable := by
  unfold Draft.fill at hfill
  split at hfill
  · obtain ⟨vs, hvs, rfl⟩ := (map_eq_ok_iff _ _ _).1 hfill
    exact legible_of_settleAll h hvs
  · obtain ⟨vs, hvs, rfl⟩ := (map_eq_ok_iff _ _ _).1 hfill
    exact legible_of_settleAll h hvs
  · cases hfill
  · cases hfill

/-- Whether a draft has operands to be replaced. -/
def fills : Draft → Bool
  | .code .. | .definition .. => true
  | _ => false

theorem fills_of_fill {forgive : Fault → Bool} {scope : Int → Scope} {r r' : Draft}
    (h : r.fill forgive scope = .ok r') :
    r.fills = true ∧ r'.fills = true := by
  unfold Draft.fill at h
  split at h
  · obtain ⟨vs, -, rfl⟩ := (map_eq_ok_iff _ _ _).1 h
    exact ⟨rfl, rfl⟩
  · obtain ⟨vs, -, rfl⟩ := (map_eq_ok_iff _ _ _).1 h
    exact ⟨rfl, rfl⟩
  · cases h
  · cases h

theorem settleAll_isOk (scope : Scope) (ops : List Operand) :
    ∃ vs, settleAll (fun _ => true) scope ops = .ok vs := by
  induction ops with
  | nil => exact ⟨[], rfl⟩
  | cons op ops ih =>
    obtain ⟨vs, hvs⟩ := ih
    obtain ⟨v, hv⟩ : ∃ v, settle (fun _ => true) scope op = .ok v := by
      unfold settle
      split <;> exact ⟨_, rfl⟩
    exact ⟨v :: vs, by rw [settleAll, hv, hvs]; rfl⟩

/-- If every fault is forgiven, a draft with operands can be filled. -/
theorem fills_of_fill_error {scope : Int → Scope} {r : Draft} {x : Fault}
    (h : r.fill (fun _ => true) scope = .error x) :
    r.fills = false := by
  cases r with
  | code a size byte ops =>
    obtain ⟨vs, hvs⟩ := settleAll_isOk (scope (a + size)) ops
    simp [Draft.fill, hvs] at h
  | definition name ops =>
    obtain ⟨vs, hvs⟩ := settleAll_isOk (scope definitionSize) ops
    simp [Draft.fill, hvs] at h
  | _ => rfl

end Draft

/-! ## Lines that leave records -/

def leavesRecord (layout : Layout) (table : OpTable) (l : Line) : Bool :=
  match Statement.ofMnemonic layout table l.mnemonic with
  | .unknown => false
  | .storage kind =>
    match kind.allot 0 l.operands with
    | .ok _ => true
    | .error _ => false
  | .exportName | .importName => (Sectioned.State.linkedName? l).isSome
  | _ => true

def recordLines (layout : Layout) (table : OpTable) (ls : List Line) : List Line :=
  ls.filter (leavesRecord layout table)

theorem recordLines_concat (layout : Layout) (table : OpTable) (pre : List Line) (l : Line) :
    recordLines layout table (pre ++ [l]) = recordLines layout table pre ++
      if leavesRecord layout table l then [l] else [] := by
  unfold recordLines
  rw [List.filter_append]
  cases h : leavesRecord layout table l <;> simp [h]

/-- A line with the lines before it brings the bulk to the bound. -/
def Overweight (layout : Layout) (table : OpTable) (pre : List Line) (l : Line) : Prop :=
  vast ≤ bulk layout table (pre ++ [l])

theorem overweight_of_weight {layout : Layout} {table : OpTable} {pre : List Line} {l : Line}
    (h : vast ≤ l.weight layout table) : Overweight layout table pre l := by
  rw [Overweight, bulk_concat]
  omega

theorem allot_isOk_iff (kind : Storage) (ops : List Operand) (a : Int) :
    (∃ al, kind.allot a ops = .ok al) ↔ ∃ al, kind.allot 0 ops = .ok al := by
  unfold Storage.allot
  split <;> simp

theorem leavesRecord_of_allotted {layout : Layout} {table : OpTable} {l : Line} {kind : Storage}
    {a : Int} {al : Allotment} (hst : Statement.ofMnemonic layout table l.mnemonic = .storage kind)
    (h : kind.allot a l.operands = .ok al) :
    leavesRecord layout table l = true := by
  obtain ⟨al', h'⟩ := (allot_isOk_iff kind l.operands a).1 ⟨al, h⟩
  simp only [leavesRecord, hst, h']

theorem leavesRecord_of_not_allotted {layout : Layout} {table : OpTable} {l : Line} {kind : Storage}
    {a : Int} {p : Problem} (hst : Statement.ofMnemonic layout table l.mnemonic = .storage kind)
    (h : kind.allot a l.operands = .error p) :
    leavesRecord layout table l = false := by
  simp only [leavesRecord, hst]
  split
  · next al hal =>
    obtain ⟨al', hal'⟩ := (allot_isOk_iff kind l.operands a).2 ⟨al, hal⟩
    simp [h] at hal'
  · rfl

theorem leavesRecord_of_command {layout : Layout} {table : OpTable} {l : Line} {op : Operation}
    (hst : Statement.ofMnemonic layout table l.mnemonic = .command op) :
    leavesRecord layout table l = true := by
  rw [leavesRecord, hst]

theorem leavesRecord_of_unknown {layout : Layout} {table : OpTable} {l : Line}
    (hst : Statement.ofMnemonic layout table l.mnemonic = .unknown) :
    leavesRecord layout table l = false := by
  rw [leavesRecord, hst]

end Assembler.OnePass
