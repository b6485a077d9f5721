import Assembler.Proofs.Magnitudes
import Assembler.Proofs.ParsedStrings
import Assembler.Proofs.RelocatablePass
import Assembler.Proofs.FlatListing

/-! # First passes that fail

Problems are reported and the first of two passes goes on, but some lines make it fail.  `Fails`
says of a computation in which faults it may end, and that it does end in one if there is any;
`Halting.run` is the way from single lines to whole runs.  In flat programs the one thing that fails
is a command with an address whose operand is the empty string, numbers without decimal forms apart
(`Flat.list_fails`). -/

namespace Assembler
open OnePass.Relocatable (upToEnd)
set_option autoImplicit false

/-- A computation ends in one of the faults described if there is any, and gives a value as
described otherwise. -/
def Fails {α : Type} (F : Fault → Prop) (P : α → Prop) : Except Fault α → Prop
  | .ok a => (∀ x, ¬ F x) ∧ P a
  | .error x => F x

section

variable {α β : Type} {F G : Fault → Prop} {P : α → Prop} {Q : β → Prop} {r : Except Fault α}

theorem fails_ok {a : α} (hF : ∀ x, ¬ F x) (ha : P a) : Fails F P (.ok a) := ⟨hF, ha⟩

theorem Fails.map (h : Fails F P r) {f : α → β} (hf : ∀ a, P a → Q (f a)) :
    Fails F Q (r.map f) := by
  cases r with
  | ok a => exact ⟨h.1, hf a h.2⟩
  | error x => exact h

theorem Fails.imp {R : α → Prop} (h : Fails F P r) (hP : ∀ a, P a → R a) : Fails F R r := by
  cases r with
  | ok a => exact ⟨h.1, hP a h.2⟩
  | error x => exact h

theorem Fails.congr (h : Fails F P r) (hF : ∀ x, F x ↔ G x) : Fails G P r := by
  obtain rfl : F = G := funext fun x => propext (hF x)
  exact h

/-- Of two computations one after the other the second may fail only if the first did not. -/
theorem Fails.bind (h : Fails F P r) {f : α → Except Fault β} (hf : ∀ a, P a → Fails G Q (f a)) :
    Fails (fun x => F x ∨ G x) Q (r.bind f) := by
  cases r with
  | error x => exact .inl h
  | ok a =>
    have hnext := hf a h.2
    change Fails _ Q (f a)
    cases hr : f a with
    | error x =>
      rw [hr] at hnext
      exact .inr hnext
    | ok b =>
      rw [hr] at hnext
      exact ⟨fun x hx => hx.elim (h.1 x) (hnext.1 x), hnext.2⟩

/-- Whether a computation fails, and in what. -/
theorem Fails.error_iff (h : Fails F P r) : ((∃ x, r = .error x) ↔ ∃ x, F x) ∧ ∀ x, r = .error x →
    F x := by
  cases r with
  | ok a => exact ⟨⟨nofun, fun ⟨x, hx⟩ => absurd hx (h.1 x)⟩, nofun⟩
  | error x =>
    refine ⟨⟨fun _ => ⟨x, h⟩, fun _ => ⟨x, rfl⟩⟩, ?_⟩
    rintro y ⟨⟩
    exact h

end

/-! ## From lines to runs -/

section

variable {σ : Type} {step : σ → Nat → Line → Except Fault σ} {ended : σ → Bool} {Good : Line → Prop}
  {Inv : List Line → σ → Prop} {F : List Line → Line → Fault → Prop}

/-- In which faults a good line ends that stands behind other lines.  `Inv pre s` says that the
lines `pre` lead to the state `s`. -/
structure Halting (step : σ → Nat → Line → Except Fault σ) (ended : σ → Bool) (Good : Line → Prop)
    (Inv : List Line → σ → Prop) (F : List Line → Line → Fault → Prop) : Prop where
  step : ∀ {pre s l} n, Inv pre s → ended s = false → Good l →
    Fails (F pre l) (fun s' => Inv (pre ++ [l]) s' ∧ (ended s' = true ↔ l.mnemonic = "END"))
      (step s n l)

/-- A run fails at a line up to the end directive, or leads through all of them. -/
theorem Halting.run (h : Halting step ended Good Inv F) (done : List Line) {s : σ} (hs : Inv done s)
    (he : ended s = false) (n : Nat) {ls : List Line} (hls : ∀ l ∈ upToEnd ls, Good l) :
    Fails (fun x => ∃ pre l post, upToEnd ls = pre ++ l :: post ∧ F (done ++ pre) l x)
      (fun s' => Inv (done ++ upToEnd ls) s') (runLines step ended s n ls) := by
  induction ls generalizing done s n with
  | nil => exact fails_ok (by simp [upToEnd]) (by simpa [upToEnd, runLines] using hs)
  | cons l ls ih =>
    have hfirst : l ∈ upToEnd (l :: ls) := by
      rw [upToEnd]
      split <;> exact List.mem_cons_self
    have hline := h.step n hs he (hls l hfirst)
    rw [runLines_cons he]
    cases hstep : step s n l with
    | error x =>
      rw [hstep] at hline
      refine ⟨[], l, (upToEnd (l :: ls)).tail, ?_, by rwa [List.append_nil]⟩
      rw [upToEnd]
      split <;> rfl
    | ok s' =>
      rw [hstep] at hline
      obtain ⟨hnot, hinv, hend⟩ := hline
      rw [upToEnd] at hls ⊢
      simp only
      split
      · next hl =>
        rw [runLines_of_ended (hend.2 hl)]
        refine fails_ok ?_ hinv
        rintro x ⟨pre, k, post, hcut, hx⟩
        obtain ⟨rfl, hcut⟩ | ⟨pre', rfl, hcut⟩ := List.cons_eq_append_iff.1 hcut
        · obtain ⟨rfl, -⟩ := List.cons.inj hcut
          exact hnot x (by simpa using hx)
        · simp at hcut
      · next hl =>
        rw [if_neg hl] at hls
        have he' : ended s' = false := by simpa using fun h' => hl (hend.1 h')
        have hrest :=
          ih (done ++ [l]) hinv he' (n + 1) fun k hk => hls k (List.mem_cons_of_mem _ hk)
        rw [List.append_assoc, List.singleton_append] at hrest
        refine hrest.congr fun x => ⟨?_, ?_⟩
        · rintro ⟨pre, k, post, hcut, hx⟩
          exact ⟨l :: pre, k, post, by rw [hcut]; rfl, by simpa using hx⟩
        · rintro ⟨pre, k, post, hcut, hx⟩
          obtain ⟨rfl, hfront⟩ | ⟨pre', rfl, hcut'⟩ := List.cons_eq_append_iff.1 hcut
          · obtain ⟨rfl, -⟩ := List.cons.inj hfront
            exact absurd (by simpa using hx) (hnot x)
          · exact ⟨pre', k, post, hcut', by simpa using hx⟩

end

/-! ## Commands -/

def Layout.directives : Layout → List String
  | .sectioned => sectionedDirectives
  | _ => flatDirectives

theorem Statement.ofMnemonic_eq_command_iff {layout : Layout} {table : OpTable} {m : String}
    {op : Operation} :
    Statement.ofMnemonic layout table m = .command op ↔ m ∉ layout.directives ∧
      table.get? m = some op := by
  constructor
  · intro h
    obtain ⟨hop, hflat, hsectioned⟩ := stands_of_eq h
    cases layout with
    | sectioned => exact ⟨hsectioned rfl, hop⟩
    | _ => exact ⟨hflat, hop⟩
  · rintro ⟨hm, hop⟩
    have htable : ofTable table m = .command op := by simp only [ofTable, hop]
    have honly : ∀ s, layout ≠ .sectioned → sectionOnly layout s (.command op) = .command op := by
      intro s hl
      cases layout with
      | sectioned => exact absurd rfl hl
      | _ => rfl
    cases layout <;>
      simp only [Layout.directives, sectionedDirectives, flatDirectives, List.cons_append,
        List.nil_append, List.mem_cons, List.not_mem_nil, or_false, not_or] at hm <;>
      simp [ofMnemonic, hm, htable, honly]

/-- A command with an address whose operand is the empty string, which has no value. -/
structure Line.Unvalued (layout : Layout) (table : OpTable) (l : Line) : Prop where
  command : l.mnemonic ∉ layout.directives
  size : ∃ op, table.get? l.mnemonic = some op ∧ op.size = 4
  operands : l.operands = [.chars ""]

/-- The numbers that the problems of a line may tell have decimal forms. -/
def Line.Tellable (layout : Layout) (table : OpTable) (l : Line) : Prop :=
  match Statement.ofMnemonic layout table l.mnemonic with
  | .storage kind =>
    kind = .words ∨ kind = .bytes → ∀ v, .number v ∈ l.operands → Text.hasDecimal v = true
  | .command op =>
    Text.hasDecimal op.size = true ∧ ∀ o ∈ l.operands, Text.hasDecimal o.constant = true
  | _ => True

/-- A line whose strings are well written and whose problems can be told. -/
structure Line.Sound (layout : Layout) (table : OpTable) (l : Line) : Prop where
  written : l.WellWritten
  tellable : l.Tellable layout table

theorem Operand.stringValue_fails {op : Operand} (hw : op.WellWritten) (hs : op.isString = true) :
    Fails (fun x => x = .notHexadecimal "" ∧ op = .chars "") (fun _ => True) op.stringValue := by
  cases hv : op.stringValue with
  | ok v =>
    refine fails_ok ?_ trivial
    rintro x ⟨-, rfl⟩
    cases hv
  | error x =>
    have hempty : op = .chars "" := by
      by_contra hne
      obtain ⟨v, hv'⟩ := (Operand.legible_iff hw).2 hne hs
      rw [hv] at hv'
      cases hv'
    subst hempty
    cases hv
    exact ⟨rfl, rfl⟩

theorem formProblems_fails {layout : Layout} {m : String} {size : Int} {ops : List Operand}
    (hw : ∀ o ∈ ops, o.WellWritten) :
    Fails (fun x => x = .notHexadecimal "" ∧ size = 4 ∧ ops = [.chars ""])
      (fun ps => formProblems layout m size ops = .ok ps) (formProblems layout m size ops) := by
  cases hr : formProblems layout m size ops with
  | ok ps =>
    refine fails_ok ?_ rfl
    rintro x ⟨-, rfl, rfl⟩
    cases hr
  | error x =>
    have hstring : ∀ (op : Operand) (f : Int → List Problem), ops = [op] → op.isString = true →
        op.stringValue.map f = .error x → x = .notHexadecimal "" ∧ op = .chars "" := by
      intro op f hops hs herr
      have hfails :=
        (Operand.stringValue_fails (hw op (by simp [hops])) hs).map (Q := fun _ => True)
          (f := f) fun _ _ => trivial
      rwa [herr] at hfails
    unfold formProblems at hr
    dsimp only at hr
    split at hr
    · split at hr <;> cases hr
    split at hr
    · split at hr
      · cases hr
      · cases hr
      · next op _ =>
        split at hr
        · next hs =>
          split at hr
          · next hsize =>
            obtain ⟨-, rfl⟩ := hstring op _ rfl hs hr
            simp [Operand.size] at hsize
          · cases hr
        · cases hr
      · cases hr
    split at hr
    · split at hr <;> cases hr
    split at hr
    · next hsize =>
      split at hr
      · cases hr
      · cases hr
      · next op _ _ =>
        split at hr
        · next hs =>
          obtain ⟨rfl, rfl⟩ := hstring op _ rfl hs hr
          exact ⟨rfl, hsize, rfl⟩
        · cases hr
      · cases hr
    · cases hr

theorem worded_fails {ps : List Problem} (h : ∀ p ∈ ps, p.hasText = true) :
    Fails (fun _ => False) (fun _ => True) (Problem.worded ps) := by
  rw [Problem.worded, if_pos (List.all_eq_true.2 h)]
  exact fails_ok (fun _ => id) trivial

section

variable {layout : Layout} {table : OpTable} {l : Line}

theorem Line.Sound.worded_allotted (h : l.Sound layout table) {kind : Storage}
    (hst : Statement.ofMnemonic layout table l.mnemonic = .storage kind) {a : Int} {al : Allotment}
    (hal : kind.allot a l.operands = .ok al) :
    Fails (fun _ => False) (fun _ => True) (Problem.worded al.problems) := by
  have htell := h.tellable
  rw [Line.Tellable, hst] at htell
  exact worded_fails (hasText_of_allot hal htell)

/-- A sound command has its problems unless its operand is the empty string. -/
theorem Line.Sound.commandProblems_fails (h : l.Sound layout table) {op : Operation}
    (hst : Statement.ofMnemonic layout table l.mnemonic = .command op) (counter : Int) :
    Fails (fun x => x = .notHexadecimal "" ∧ l.Unvalued layout table) (fun _ => True)
      (commandProblems layout counter l.mnemonic op.size l.operands) := by
  have htell := h.tellable
  rw [Line.Tellable, hst] at htell
  have hbind : commandProblems layout counter l.mnemonic op.size l.operands =
      (formProblems layout l.mnemonic op.size l.operands).bind fun ps =>
        (Problem.worded ps).map
          (· ++ rangeProblems (counter + op.size) (.afterCommand l.mnemonic)) := by
    rw [commandProblems, operandProblems, if_pos htell.1]
    cases formProblems layout l.mnemonic op.size l.operands <;> rfl
  rw [hbind]
  refine ((formProblems_fails h.written).bind (G := fun _ => False) fun ps hps => ?_).congr
    fun x => ?_
  · exact (worded_fails (hasText_of_formProblems hps htell.1 htell.2)).map fun _ _ => trivial
  · obtain ⟨hm, hop⟩ := Statement.ofMnemonic_eq_command_iff.1 hst
    rw [or_false]
    refine and_congr_right fun _ =>
      ⟨fun ⟨hsize, hops⟩ => ⟨hm, ⟨op, hop, hsize⟩, hops⟩, fun hl => ?_⟩
    obtain ⟨op', hop', hsize⟩ := hl.size
    obtain rfl : op = op' := Option.some.inj (hop.symm.trans hop')
    exact ⟨hsize, hl.operands⟩

/-- Only a command is without value. -/
theorem Line.Unvalued.command_eq (h : l.Unvalued layout table) :
    ∃ op, Statement.ofMnemonic layout table l.mnemonic = .command op := by
  obtain ⟨op, hop, -⟩ := h.size
  exact ⟨op, Statement.ofMnemonic_eq_command_iff.2 ⟨h.command, hop⟩⟩

end

/-! ## Flat programs -/

namespace TwoPass.Flat

variable {d : Dialect} {table : OpTable} {use : NameUse} {s : Scan} {n : Nat} {l : Line}

namespace Scan

theorem ended_expectStarted (s : Scan) (n : Nat) : (s.expectStarted n).ended = s.ended := by
  unfold expectStarted
  split <;> rfl

theorem ended_noteLabel (s : Scan) (n : Nat) (l : Line) : (s.noteLabel n l).ended = s.ended := by
  unfold noteLabel
  split
  · rfl
  · split <;> rfl

theorem storageLine_fails {kind : Storage}
    (hst : Statement.ofMnemonic d.layout table l.mnemonic = .storage kind)
    (hl : l.Sound d.layout table) :
    Fails (fun _ => False) (fun s' => s'.ended = s.ended) (s.storageLine kind n l) := by
  unfold storageLine
  split
  · exact fails_ok (fun _ => id) rfl
  · next al hal => exact (hl.worded_allotted hst hal).map fun _ _ => rfl

theorem commandLine_fails {op : Operation}
    (hst : Statement.ofMnemonic d.layout table l.mnemonic = .command op)
      (hl : l.Sound d.layout table) :
        Fails (fun x => x = .notHexadecimal "" ∧ l.Unvalued d.layout table)
          (fun s' => s'.ended = s.ended) (s.commandLine d use op n l) :=
  (hl.commandProblems_fails hst s.counter).map fun _ _ => rfl

end Scan

/-- A line of a flat program fails if it is a command without value. -/
theorem halting (d : Dialect) (table : OpTable) (use : NameUse) :
    Halting (Scan.line d table use) Scan.ended (Line.Sound d.layout table) (fun _ _ => True)
      (fun _ l x => x = .notHexadecimal "" ∧ l.Unvalued d.layout table) where
  step {_ s l} n _ he hl := by
    have hvalued : (∀ op, Statement.ofMnemonic d.layout table l.mnemonic ≠ .command op) →
        ∀ x : Fault, ¬ (x = .notHexadecimal "" ∧ l.Unvalued d.layout table) := by
      rintro hnot x ⟨-, h⟩
      obtain ⟨op, hop⟩ := h.command_eq
      exact hnot op hop
    have hkept : ((s.expectStarted n).noteLabel n l).ended = false := by
      rw [Scan.ended_noteLabel, Scan.ended_expectStarted, he]
    have hend : ∀ s' : Scan, l.mnemonic ≠ "END" → s'.ended = false →
        True ∧ (s'.ended = true ↔ l.mnemonic = "END") :=
      fun s' hne hs' => ⟨trivial, by simp [hs', hne]⟩
    have hfinish := Statement.ofMnemonic_eq_finish_iff d.layout table l.mnemonic
    unfold Scan.line
    split
    · next hst => exact fails_ok (hvalued (by simp [hst])) (hend _ (by simp [← hfinish, hst]) he)
    · next hst =>
      exact fails_ok (hvalued (by simp [hst]))
        ⟨trivial, by simp [Scan.endLine, Scan.list, ← hfinish, hst]⟩
    · next kind hst =>
      have hnot := hvalued (by simp [hst])
      exact ((Scan.storageLine_fails hst hl).congr fun x => ⟨False.elim, hnot x⟩).imp fun s' hs' =>
        hend s' (by simp [← hfinish, hst]) (hs'.trans hkept)
    · next op hst =>
      exact (Scan.commandLine_fails hst hl).imp fun s' hs' => hend s' (by simp [← hfinish, hst])
        (hs'.trans hkept)
    · next hstart hnofinish hstorage hcommand =>
      exact fails_ok (hvalued hcommand) (hend _ (fun h => hnofinish (hfinish.2 h)) hkept)

/-- The first pass over a flat program fails if and only if one of its lines is a command without
value. -/
theorem list_fails (d : Dialect) (table : OpTable) (use : NameUse) {program : List Line}
    (h : ∀ l ∈ upToEnd program, l.Sound d.layout table) :
    Fails (fun x => x = .notHexadecimal "" ∧ ∃ l ∈ upToEnd program, l.Unvalued d.layout table)
      (fun _ => True) (list d table use program) := by
  unfold list
  rw [Scan.lines_eq_runLines]
  refine (((halting d table use).run [] trivial rfl 1 h).congr fun x => ?_).map fun _ _ => trivial
  constructor
  · rintro ⟨pre, l, post, hcut, hx, hl⟩
    exact ⟨hx, l, by simp [hcut], hl⟩
  · rintro ⟨hx, l, hl, hvalue⟩
    obtain ⟨pre, post, hcut⟩ := List.append_of_mem hl
    exact ⟨pre, l, post, hcut, hx, hvalue⟩

end TwoPass.Flat

end Assembler
