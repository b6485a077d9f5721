import Mathlib.Logic.Function.Iterate
import Assembler.Assembly
import Assembler.Proofs.AbsolutePass
import Assembler.Proofs.AcceptedSheets

/-! # Operand fields that are filled in later

A table for absolute programs in one pass may hold commands of three bytes, but no form of their
operands is checked and none is written.  Such a command gets a field of its own kind (`Unformed`):
it is empty while a name in it is open and takes the address of every name that turns up, but it is
no number if all names in it have been met.  The other commands get the digits that their size
leaves room for, at once or when their name turns up (`Formed`).  `Progress` carries both along a
run. -/

namespace Assembler
set_option autoImplicit false

/-! ## Operands of three bytes -/

theorem not_relative_of_directOnly {ops : List Operand} (h : nameUseProblems .directOnly ops = [])
    (x : String) :
    .relative x ∉ ops := by
  intro hx
  have hany : ops.any (·.kind == .relative) = true := List.any_eq_true.2 ⟨_, hx, rfl⟩
  simp [nameUseProblems, hany] at h

theorem FieldWidth.ofSource?_three {ops : List Operand} (h : ∀ x, ops ≠ [.relative x]) :
    ofSource? 3 ops = if isOneString ops then some .address else none := by
  unfold ofSource?
  rcases ops with _ | ⟨op, _ | ⟨op', ops⟩⟩
  · rfl
  · cases op with
    | relative x => exact absurd rfl (h x)
    | _ => rfl
  · cases op <;> rfl

theorem value_of_isOneString {rd : Reading} {ops : List Operand}
    (h : FieldWidth.isOneString ops = true) {vs : List Int}
    (hvs : operandValues? rd ops = some vs) : ∃ v, vs = [v] := by
  rcases ops with _ | ⟨op, _ | ⟨op', ops⟩⟩
  · cases h
  · obtain ⟨v, hv, hvs⟩ := Option.bind_eq_some_iff.1 hvs
    obtain rfl : [v] = vs := Option.some.inj hvs
    rw [Operand.value?_of_isString rd h] at hv
    cases hstring : op.stringValue with
    | error x => simp [hstring, Except.toOption] at hv
    | ok w =>
      obtain rfl : w = v := by simpa [hstring, Except.toOption] using hv
      exact ⟨w, rfl⟩
  · cases h

namespace OnePass

/-! ## Places of references -/

/-- The places of the references to a name, one for each operand that is the name; the first line
has place `k`. -/
def referencePlaces (x : String) : Nat → List Line → List (Option Nat)
  | _, [] => []
  | k, l :: ls =>
    List.replicate (l.operands.count (.direct x)) (some k) ++ referencePlaces x (k + 1) ls

theorem referencePlaces_concat (x : String) (k : Nat) (ls : List Line) (l : Line) :
    referencePlaces x k (ls ++ [l]) =
      referencePlaces x k ls ++ List.replicate (l.operands.count (.direct x))
        (some (k + ls.length)) := by
  induction ls generalizing k with
  | nil => simp [referencePlaces]
  | cons m ls ih => simp [referencePlaces, ih, Nat.add_assoc, Nat.add_comm 1]

theorem not_mem_of_referencePlaces {x : String} {k : Nat} {ls : List Line}
    (h : referencePlaces x k ls = []) {l : Line} (hl : l ∈ ls) : .direct x ∉ l.operands := by
  induction ls generalizing k with
  | nil => cases hl
  | cons m ls ih =>
    rw [referencePlaces, List.append_eq_nil_iff, List.replicate_eq_nil_iff, List.count_eq_zero] at h
    rcases List.mem_cons.1 hl with rfl | hl
    · exact h.1
    · exact ih h.2 hl

section

variable {α : Type} (g : α → α)

theorem changeAll_replicate (n : Nat) (pre : List α) (r : α) (rs : List α)
    (places : List (Option Nat)) :
    changeAll (fun r => .ok (g r)) (List.replicate n (some pre.length) ++ places) (pre ++ r :: rs) =
      changeAll (fun r => .ok (g r)) places (pre ++ g^[n] r :: rs) := by
  induction n generalizing r with
  | zero => rfl
  | succ n ih =>
    simp only [List.replicate_succ, List.cons_append, changeAll, changeAt_append, map_ok, ih,
      Function.iterate_succ_apply]

theorem changeAll_referencePlaces (x : String) (pre : List α) {ls : List Line} {rs : List α}
    (h : rs.length = ls.length) :
    changeAll (fun r => .ok (g r)) (referencePlaces x pre.length ls) (pre ++ rs) =
      .ok (pre ++ List.zipWith (fun l r => g^[l.operands.count (.direct x)] r) ls rs) := by
  induction ls generalizing pre rs with
  | nil =>
    obtain rfl := List.length_eq_zero_iff.1 h
    rfl
  | cons l ls ih =>
    cases rs with
    | nil => cases h
    | cons r rs =>
      have hrest := ih (pre ++ [g^[l.operands.count (.direct x)] r]) (Nat.succ.inj h)
      rw [List.length_append, List.length_singleton, List.append_assoc, List.singleton_append]
        at hrest
      rw [referencePlaces, changeAll_replicate, hrest, List.append_assoc, List.singleton_append,
        List.zipWith_cons_cons]

end

namespace Absolute

variable {table : OpTable} {ρ : String → Option Int} {places : String → List (Option Nat)}
  {s s' : State} {l : Line}

/-! ## References of a line -/

theorem count_awaitedName? (ops : List Operand) (x : String) :
    (ops.filterMap (awaitedName? .absolute)).count x = ops.count (.direct x) := by
  rw [List.count, List.count, List.countP_filterMap]
  refine List.countP_congr fun o _ => ?_
  cases o <;> simp [awaitedName?, Operand.referredName?]

theorem State.waitForAll_accounts (h : Accounts s.names s.waiting ρ places) (l : Line) :
    Accounts (s.waitForAll l).names (s.waitForAll l).waiting ρ fun y =>
      places y ++ List.replicate (l.operands.count (.direct y)) (lastPlace s.records.length) := by
  simp only [← count_awaitedName?]
  exact h.awaitAll _ _

/-! ## Fields -/

/-- A field of the address of a name: empty until it is known. -/
def HoldsAddress (ρ : String → Option Int) (x : String) (f : String) : Prop :=
  match ρ x with
  | none => f = ""
  | some b => ∃ letters, f = Text.hex letters 6 b

/-- The field of a command whose operands have a form, while the labels met are `ρ`. -/
structure Formed (ρ : String → Option Int) (next size : Int) (ops : List Operand) (f : String) :
    Prop where
  admitted : Admitted size ops
  address : ∀ x, ops = [.direct x] → HoldsAddress ρ x f
  constant :
    (∀ x, .direct x ∉ ops) → operandDigits? (.ofAddresses (fun _ => none) next) size ops = some f

/-- The field of a command of three bytes, which came upon the labels `met`. -/
structure Unformed (ρ : String → Option Int) (met : List String) (ops : List Operand) (f : String) :
    Prop where
  misfit : f.length = 4 → ∃ c ∈ f.toList, Text.isHexadecimal c = false
  known : ∀ x, ops = [.direct x] → x ∈ met → f = "None"
  unknown : ∀ x, ops = [.direct x] → x ∉ met → HoldsAddress ρ x f

section Fill

variable {x : String} {b : Int} {f : String}

theorem holdsAddress_none (h : ρ x = none) : HoldsAddress ρ x f ↔ f = "" := by rw [HoldsAddress, h]

theorem holdsAddress_some (h : ρ x = some b) :
    HoldsAddress ρ x f ↔ ∃ letters, f = Text.hex letters 6 b := by
  rw [HoldsAddress, h]

/-- One more label turns up, and its address is appended once for each operand that is its name. -/
theorem HoldsAddress.fill (hx : ρ x = none) {y : String} (h : HoldsAddress ρ y f) :
    HoldsAddress (fun z => if x = z then some b else ρ z) y
      ((· ++ Text.hex .lower 6 b)^[[Operand.direct y].count (.direct x)] f) := by
  by_cases hxy : x = y
  · subst hxy
    obtain rfl := (holdsAddress_none hx).1 h
    rw [List.count_singleton_self, holdsAddress_some (if_pos rfl)]
    exact ⟨.lower, String.empty_append⟩
  · rw [List.count_eq_zero.2 (by simpa using hxy)]
    simpa [HoldsAddress, hxy] using h

theorem Formed.fill {next size : Int} {ops : List Operand} (hx : ρ x = none)
    (h : Formed ρ next size ops f) :
    Formed (fun z => if x = z then some b else ρ z) next size ops
      ((· ++ Text.hex .lower 6 b)^[ops.count (.direct x)] f) := by
  refine ⟨h.admitted, fun y hy => ?_, fun hnone => ?_⟩
  · subst hy
    exact (h.address y rfl).fill hx
  · rw [List.count_eq_zero.2 (hnone x)]
    exact h.constant hnone

theorem Unformed.fill {met : List String} {ops : List Operand} (hx : ρ x = none)
    (hmet : ∀ y ∈ met, (ρ y).isSome = true) (h : Unformed ρ met ops f) :
    Unformed (fun z => if x = z then some b else ρ z) met ops
      ((· ++ Text.hex .lower 6 b)^[ops.count (.direct x)] f) := by
  refine ⟨?_, fun y hy hknown => ?_, fun y hy hunknown => ?_⟩
  · refine Function.Iterate.rec (fun f : String => f.length = 4 →
      ∃ c ∈ f.toList, Text.isHexadecimal c = false) h.misfit (fun f _ hlength => ?_) _
    have hsix := Text.le_length_hex .lower 6 b
    rw [String.length_append] at hlength
    omega
  · have hne : .direct x ∉ ops := by
      rw [hy, List.mem_singleton]
      rintro hxy
      obtain rfl := Operand.direct.inj hxy
      simpa [hx] using hmet x hknown
    rw [List.count_eq_zero.2 hne]
    exact h.known y hy hknown
  · subst hy
    exact (h.unknown y rfl hunknown).fill hx

end Fill

section Made

variable {met : List String} {next size : Int} {ops : List Operand} {field : Option String}

theorem formed_of_inOnePass (hρ : addressIn s.names = ρ)
    (hsize : size ∈ Layout.absolute.commandSizes) (hadm : Admitted size ops)
    (h : Field.inOnePass dialect (s.scope next) size ops = .ok field) :
    Formed ρ next size ops (Field.shown field) := by
  obtain ⟨hlegible, rfl⟩ := (State.inOnePass_eq_ok_iff hρ hsize hadm next field).1 h
  have hdirect : ∀ x, .direct x ∈ ops → ops = [.direct x] ∧ size = 4 := by
    intro x hx
    obtain h4 | ⟨-, rfl⟩ := hadm.reference hx rfl
    · exact h4
    · simp [Layout.commandSizes, absoluteSizes] at hsize
  have hrelative : ∀ x, ops ≠ [.relative x] := by
    intro x hx
    obtain ⟨hdir, -⟩ | ⟨-, rfl⟩ :=
      hadm.reference (hx ▸ List.mem_singleton_self (Operand.relative x)) rfl
    · rw [hx] at hdir
      cases hdir
    · simp [Layout.commandSizes, absoluteSizes] at hsize
  refine ⟨hadm, fun x hx => ?_, fun hnone => ?_⟩
  · obtain ⟨-, rfl⟩ := hdirect x (hx ▸ List.mem_singleton_self _)
    rw [hx, operandDigits?_direct]
    cases hknown : ρ x with
    | none =>
      rw [holdsAddress_none hknown]
      simp [Field.shown, Reading.ofAddresses, hknown]
    | some b =>
      rw [holdsAddress_some hknown]
      exact ⟨.upper, by simp [Field.shown, Reading.ofAddresses, hknown, Text.address]⟩
  · have hsame :
        operandDigits? (.ofAddresses ρ next) size ops =
          operandDigits? (.ofAddresses (fun _ => none) next) size ops :=
      operandDigits?_congr hadm (fun x hx => (hnone x (hx ▸ List.mem_singleton_self _)).elim)
        fun x hx => (hrelative x hx).elim
    have hsome := (operandDigits?_isSome_iff hadm (fun _ => none) next).2 ⟨hlegible, fun x hx => ?_⟩
    · obtain ⟨ds, hds⟩ := Option.isSome_iff_exists.1 hsome
      rw [hsame, hds]
      rfl
    · obtain ⟨o, ho, hname⟩ := mem_of_referenceOf hx
      obtain ⟨hdir, -⟩ | ⟨hrel, -⟩ := hadm.reference ho hname
      · exact (hnone x (hdir ▸ List.mem_singleton_self _)).elim
      · exact (hrelative x hrel).elim

theorem unformed_of_inOnePass (hρ : addressIn s.names = ρ)
    (hmet : ∀ x, (ρ x).isSome = true ↔ x ∈ met) (huse : nameUseProblems .directOnly ops = [])
    (h : Field.inOnePass dialect (s.scope next) 3 ops = .ok field) :
    Unformed ρ met ops (Field.shown field) := by
  have hk := Scope.absolute_knows s.names next
  rw [hρ] at hk
  have hvalue : ∀ x, ops = [.direct x] →
      operandValues? ⟨ρ, fun _ => none⟩ ops = (ρ x).map fun b => [b] := by
    rintro x rfl
    cases hx : ρ x <;> simp [operandValues?, Operand.value?, hx]
  have hwidth : FieldWidth.ofSource? 3 ops = if FieldWidth.isOneString ops then some .address
      else none :=
    FieldWidth.ofSource?_three fun x hx => not_relative_of_directOnly huse x
      (hx ▸ List.mem_singleton_self _)
  have hpending : Field.pending (FieldWidth.ofSource? 3 ops) (s.scope next) ops = .ok field := h
  rw [hwidth] at hpending
  obtain ⟨hopen, rfl⟩ | ⟨vs, hvs, hfield⟩ := Field.pending_eq_ok hk hpending
  · refine ⟨fun hlength => ?_, fun x hx hknown => ?_, fun x hx _ => ?_⟩
    · cases hlength
    · rw [hvalue x hx, Option.map_eq_none_iff] at hopen
      simpa [hopen] using (hmet x).2 hknown
    · rw [hvalue x hx, Option.map_eq_none_iff] at hopen
      exact (holdsAddress_none hopen).2 rfl
  · have hknown : ∀ x, ops = [.direct x] → x ∈ met := by
      intro x hx
      rw [hvalue x hx] at hvs
      obtain ⟨b, hb, -⟩ := Option.map_eq_some_iff.1 hvs
      exact (hmet x).1 (by rw [hb]; rfl)
    split at hfield
    · next hstring =>
      obtain ⟨v, rfl⟩ := value_of_isOneString hstring hvs
      rw [Field.lenient_number] at hfield
      obtain rfl := Except.ok.inj hfield
      refine ⟨fun hlength => ?_, fun x hx _ => ?_,
        fun x hx hunknown => absurd (hknown x hx) hunknown⟩
      · have hsix := Text.le_length_hex .upper 6 v
        simp only [Field.shown, Option.getD_some, FieldWidth.digits, FieldWidth.format,
          String.append_empty] at hlength
        omega
      · rw [hx] at hstring
        cases hstring
    · obtain rfl : none = field := Except.ok.inj hfield
      exact ⟨fun _ => ⟨'N', by decide, by decide⟩, fun _ _ _ => rfl,
        fun x hx hunknown => absurd (hknown x hx) hunknown⟩

end Made

/-! ## Records on the way -/

abbrev labelsOf (ls : List Line) : List String := ls.filterMap Line.name?

/-- The record of a line, if it is a command that came upon the labels `met`, while the labels met
are `ρ`. -/
def Carries (table : OpTable) (ρ : String → Option Int) (met : List String) (l : Line)
    (r : ObjectRecord) : Prop :=
  ∀ op, Statement.ofMnemonic .absolute table l.mnemonic = .command op →
    ∃ a f, r = .code a op.size (codeByte op.opcode l.operands) f ∧
      (op.size = 3 → Unformed ρ met l.operands f) ∧
      (op.size ≠ 3 → Formed ρ (a + op.size) op.size l.operands f)

theorem iterate_appendAddress (n : Nat) (b a size byte : Int) (f : String) :
    (appendAddress b)^[n] (.code a size byte f) =
      .code a size byte ((· ++ Text.hex .lower 6 b)^[n] f) := by
  have hcomm :
      Function.Semiconj (ObjectRecord.code a size byte) (· ++ Text.hex .lower 6 b)
        (appendAddress b) := fun _ => rfl
  exact (hcomm.iterate_right n f).symm

/-- A label that turns up is filled in. -/
theorem Carries.fill {met : List String} {r : ObjectRecord} {x : String} {b : Int} (hx : ρ x = none)
    (hmet : ∀ y ∈ met, (ρ y).isSome = true) (h : Carries table ρ met l r) :
    Carries table (fun z => if x = z then some b else ρ z) met l
      ((appendAddress b)^[l.operands.count (.direct x)] r) := by
  intro op hop
  obtain ⟨a, f, rfl, hthree, hother⟩ := h op hop
  exact ⟨a, _, iterate_appendAddress _ _ _ _ _ _, fun h3 => (hthree h3).fill hx hmet,
    fun h3 => (hother h3).fill hx⟩

/-- The pass after lines that nothing is wrong with, when the labels `met` have the addresses
`ρ`. -/
structure Progress (table : OpTable) (ls : List Line) (met : List String) (ρ : String → Option Int)
    (s : State) : Prop where
  started : s.started = true
  found : s.found = []
  accounts : Accounts s.names s.waiting ρ fun x => referencePlaces x 1 ls
  records : ∃ header rs, s.records = header :: rs ∧ rs.length = ls.length ∧
    ∀ i l r, ls[i]? = some l → rs[i]? = some r → Carries table ρ (labelsOf (ls.take (i + 1))) l r
  labels : ∀ x, (ρ x).isSome = true ↔ x ∈ met
  distinct : met.Nodup
  earlier : labelsOf ls ⊆ met
  positive : 0 < s.counter
  addresses : ∀ x b, ρ x = some b → 0 < b ∧ InMemory b

namespace Progress

variable {ls : List Line} {met : List String}

/-- A label that is new and stands in memory is noted and filled in. -/
theorem noteLabel (h : Progress table ls met ρ s) (n : Nat) (hnew : Fresh ρ l)
    (hfit : l.LabelFits s.counter) :
    ∃ s', s.noteLabel n l = .ok s' ∧
      Progress table ls (met ++ l.name?.toList) (labelled ρ s.counter l) s' := by
  unfold State.noteLabel
  cases hl : l.name? with
  | none => exact ⟨s, rfl, by rwa [labelled_of_none hl, Option.toList_none, List.append_nil]⟩
  | some x =>
    have hx : ρ x = none := hnew x hl
    have hm : InMemory s.counter := hfit (by simp [hl])
    obtain ⟨header, rs, hrs, hlength, hcarries⟩ := h.records
    have hchange := changeAll_referencePlaces (appendAddress s.counter) x [header] hlength
    rw [List.singleton_append, ← hrs] at hchange
    obtain ⟨names, waiting, haccounts, hfill⟩ := State.fillWaiting_of_accounts h.accounts hx hchange
    have htaken : isTaken s.names x = false := by simp [h.accounts.isTaken_eq, hx]
    have hreport : s.report n (rangeProblems s.counter (.label x)) = s := by
      rw [(rangeProblems_eq_nil_iff _ _).2 hm]
      simp [State.report]
    simp only [htaken, hreport, labelled_of_some hl, Bool.false_eq_true, if_false]
    refine ⟨_, hfill, ?_⟩
    refine ⟨h.started, h.found, haccounts, ⟨header, _, rfl, ?_, ?_⟩, ?_, ?_, ?_, h.positive, ?_⟩
    · simp [hlength]
    · intro i k r' hk hr'
      obtain ⟨k', r, hk', hr, rfl⟩ := List.getElem?_zipWith_eq_some.1 hr'
      obtain rfl : k = k' := Option.some.inj (hk.symm.trans hk')
      refine (hcarries i k r hk hr).fill hx fun y hy => ?_
      exact (h.labels y).2 (h.earlier (((List.take_sublist _ _).filterMap _).subset hy))
    · intro y
      by_cases hy : x = y
      · simp [hy]
      · simp [hy, h.labels, Ne.symm hy]
    · have hfresh : x ∉ met := fun hmem => by simpa [hx] using (h.labels x).2 hmem
      rw [Option.toList_some, ← List.concat_eq_append, List.nodup_concat]
      exact ⟨hfresh, h.distinct⟩
    · exact fun y hy => List.mem_append_left _ (h.earlier hy)
    · intro y b hy
      split at hy
      · cases hy
        exact ⟨h.positive, hm⟩
      · exact h.addresses y b hy

/-- A line adds its record, moves the counter and lets its references wait. -/
theorem push (h : Progress table ls (labelsOf (ls ++ [l])) ρ s) {r : ObjectRecord}
    (hr : Carries table ρ (labelsOf (ls ++ [l])) l r) {a : Int} (ha : 0 < a) :
    Progress table (ls ++ [l]) (labelsOf (ls ++ [l])) ρ (((s.add r).moveTo a).waitForAll l) := by
  obtain ⟨header, rs, hrs, hlength, hcarries⟩ := h.records
  have hplace : lastPlace ((s.add r).moveTo a).records.length = some (1 + ls.length) := by
    simp [lastPlace, State.moveTo, State.add, hrs, hlength, Nat.add_comm]
  have haccounts := State.waitForAll_accounts (s := (s.add r).moveTo a) h.accounts l
  simp only [hplace, ← referencePlaces_concat] at haccounts
  refine ⟨h.started, h.found, haccounts, ⟨header, rs ++ [r], ?_, ?_, ?_⟩, h.labels, h.distinct,
    List.Subset.refl _, ha, h.addresses⟩
  · simp [State.waitForAll, State.moveTo, State.add, hrs]
  · simp [hlength]
  · intro i k q hk hq
    by_cases hi : i < ls.length
    · rw [List.getElem?_append_left hi] at hk
      rw [List.getElem?_append_left (by omega)] at hq
      rw [List.take_append_of_le_length (by omega)]
      exact hcarries i k q hk hq
    · have hlast : i = ls.length := by
        have hlt := (List.getElem?_eq_some_iff.1 hk).1
        rw [List.length_append, List.length_singleton] at hlt
        omega
      subst hlast
      obtain rfl : l = k := by simpa using hk
      obtain rfl : r = q := by simpa [← hlength] using hq
      rwa [List.take_of_length_le (by simp)]

end Progress

theorem State.bodyLine_cases {use : NameUse} (hl : l.mnemonic ≠ "START" ∧ l.mnemonic ≠ "END")
    {n : Nat} (h : s.bodyLine use (Statement.ofMnemonic .absolute table l.mnemonic) n l = .ok s')
    (hf : s'.found = []) :
    l.Fits .absolute table use s.counter ∧
      ∃ r, s' = ((s.add r).moveTo (s.counter + l.extent .absolute table)).waitForAll l ∧
      ∀ op, Statement.ofMnemonic .absolute table l.mnemonic = .command op →
        ∃ field, Field.inOnePass dialect (s.scope (s.counter + op.size)) op.size l.operands =
          .ok field ∧
          r = .code s.counter op.size (codeByte op.opcode l.operands) (Field.shown field) := by
  unfold Line.Fits Line.extent
  generalize hst : Statement.ofMnemonic .absolute table l.mnemonic = st at h ⊢
  cases st with
  | start => exact absurd ((Statement.ofMnemonic_eq_start_iff _ _ _).1 hst) hl.1
  | finish => exact absurd ((Statement.ofMnemonic_eq_finish_iff _ _ _).1 hst) hl.2
  | storage kind =>
    obtain ⟨s₁, hs, rfl⟩ := (map_eq_ok_iff _ _ _).1 h
    obtain ⟨-, hallot, rfl⟩ := (storageLine_clean_iff kind n l).1 ⟨hs, by simpa using hf⟩
    exact ⟨hallot, _, rfl, nofun⟩
  | command op =>
    obtain ⟨s₁, hs, rfl⟩ := (map_eq_ok_iff _ _ _).1 h
    obtain ⟨-, hproblems, field, hfield, rfl⟩ :=
      (commandLine_clean_iff op n l).1 ⟨hs, by simpa using hf⟩
    refine ⟨hproblems, _, rfl, fun op' hop => ?_⟩
    obtain rfl := Statement.command.inj hop
    exact ⟨field, hfield, rfl⟩
  | _ =>
    obtain rfl := Except.ok.inj h
    simp [report] at hf

namespace Progress

variable {ls : List Line} {met : List String}

/-- What a line that leaves no problem does: its label is met, and then the rest of it is taken
in. -/
theorem line_cases {use : NameUse} (h : Progress table ls met ρ s) (hl : l.mnemonic ≠ "START")
    {n : Nat} (hs : s.line table use n l = .ok s') (hf : s'.found = []) :
    ∃ s₁ ρ₁, Progress table ls (met ++ l.name?.toList) ρ₁ s₁ ∧
      s₁.bodyLine use (Statement.ofMnemonic .absolute table l.mnemonic) n l = .ok s' := by
  rw [State.line_eq hl, State.expectStarted, if_pos h.started] at hs
  cases hn : s.noteLabel n l with
  | error x => simp [hn] at hs
  | ok s₁ =>
    simp only [hn] at hs
    obtain ⟨hnew, hfit⟩ := State.of_noteLabel h.accounts (fun x b hx => (h.addresses x b hx).1) hn
      (State.found_of_bodyLine hs hf)
    obtain ⟨s₂, hn₂, hprogress⟩ := h.noteLabel n hnew hfit
    obtain rfl : s₁ = s₂ := Except.ok.inj (hn.symm.trans hn₂)
    exact ⟨s₁, _, hprogress, hs⟩

/-- The invariant carries over from line to line. -/
theorem line (hsizes : ∀ m op, table.get? m = some op → op.size ∈ allSizes)
    (h : Progress table ls (labelsOf ls) ρ s) (hl : l.mnemonic ≠ "START" ∧ l.mnemonic ≠ "END")
    {n : Nat} (hs : s.line table .directOnly n l = .ok s') (hf : s'.found = []) :
    ∃ ρ', Progress table (ls ++ [l]) (labelsOf (ls ++ [l])) ρ' s' := by
  obtain ⟨s₁, ρ₁, hprogress, hbody⟩ := h.line_cases hl.1 hs hf
  obtain ⟨hfit, r, rfl, hr⟩ := State.bodyLine_cases hl hbody hf
  have hlabels : labelsOf ls ++ l.name?.toList = labelsOf (ls ++ [l]) := by
    cases hname : l.name? <;> simp [hname]
  rw [hlabels] at hprogress
  have hpositive := hprogress.positive
  refine ⟨ρ₁, hprogress.push (fun op hop => ?_) ?_⟩
  · obtain ⟨field, hfield, rfl⟩ := hr op hop
    rw [Line.Fits, hop] at hfit
    refine ⟨_, _, rfl, fun h3 => ?_, fun h3 => ?_⟩
    · rw [h3] at hfield
      exact unformed_of_inOnePass hprogress.accounts.addressIn_eq hprogress.labels hfit.2 hfield
    · have hsize : op.size ∈ Layout.absolute.commandSizes := by
        have hmem := hsizes _ op (Statement.stands_of_eq hop).1
        simp [allSizes, Layout.commandSizes, absoluteSizes] at hmem ⊢
        omega
      have hadm := ((commandProblems_eq_nil_iff hsize _ _ _).1 hfit.1).1
      exact formed_of_inOnePass hprogress.accounts.addressIn_eq hsize hadm hfield
  · have hextent : 0 ≤ l.extent .absolute table := by
      rcases hfit.cases with ⟨kind, al, hk, hal, hp⟩ | ⟨op, hop, -⟩
      · rw [extent_of_storage hk]
        exact Storage.extent_nonneg hal hp
      · have hmem := hsizes _ op (Statement.stands_of_eq hop).1
        rw [extent_of_command hop]
        simp [allSizes] at hmem
        omega
    omega

/-- And along all lines of the body. -/
theorem steps (hsizes : ∀ m op, table.get? m = some op → op.size ∈ allSizes)
    (h : Progress table ls (labelsOf ls) ρ s) {n : Nat} {body : List Line}
    (hb : ∀ l ∈ body, l.mnemonic ≠ "START" ∧ l.mnemonic ≠ "END")
    (hs : CleanSteps (State.line table .directOnly) (fun s => s.found = []) s n body s') :
    ∃ ρ', Progress table (ls ++ body) (labelsOf (ls ++ body)) ρ' s' := by
  induction body generalizing ls ρ s n with
  | nil =>
    obtain rfl := hs
    exact ⟨ρ, by rwa [List.append_nil]⟩
  | cons l body ih =>
    obtain ⟨s₁, hstep, hclean, hrest⟩ := hs
    obtain ⟨ρ₁, hprogress⟩ := h.line hsizes (hb l List.mem_cons_self) hstep hclean
    have hall := ih hprogress (fun k hk => hb k (List.mem_cons_of_mem _ hk)) hrest
    rwa [List.append_assoc, List.singleton_append] at hall

end Progress

/-! ## Accepted programs -/

/-- The records `code` of the body of an accepted program whose labels are `ρ`. -/
structure Patched (table : OpTable) (body : List Line) (code : List ObjectRecord)
    (ρ : String → Option Int) : Prop where
  length_eq : code.length = body.length
  records : ∀ i l r, body[i]? = some l → code[i]? = some r →
    Carries table ρ (labelsOf (body.take (i + 1))) l r
  labels : ∀ x ∈ labelsOf body, (ρ x).isSome = true
  distinct : (labelsOf body).Nodup
  addresses : ∀ x b, ρ x = some b → InMemory b
  closed : ∀ l ∈ body, ∀ x, .direct x ∈ l.operands → (ρ x).isSome = true

theorem Carries.setLength {met : List String} {r : ObjectRecord} (h : Carries table ρ met l r)
    (n : Int) :
    Carries table ρ met l (setLength n r) := by
  intro op hop
  obtain ⟨a, f, rfl, hfield⟩ := h op hop
  exact ⟨a, f, rfl, hfield⟩

/-- The invariant holds after a start directive that nothing is wrong with. -/
theorem Progress.start {first : Line} (hm : InMemory (Layout.absolute.load first))
    (hl : Layout.absolute.loadProblems (Layout.absolute.load first) = []) :
    Progress table [] [] (fun _ => none) (.opened first) :=
  ⟨rfl, rfl, fun _ => ⟨rfl, rfl⟩, ⟨_, [], rfl, rfl, nofun⟩, by simp, List.nodup_nil,
    List.Subset.refl _, load_pos hm hl,
    nofun⟩

theorem patched_of_accepted (hsizes : ∀ m op, table.get? m = some op → op.size ∈ allSizes)
    {program : List Line} {v : Snapshot} (h : (trace table .directOnly program).AcceptedWith v) :
    ∃ first body last rest header code finish ρ, program = first :: (body ++ last :: rest) ∧
      first.mnemonic = "START" ∧
      (∀ l ∈ body, l.mnemonic ≠ "START" ∧ l.mnemonic ≠ "END") ∧ last.mnemonic = "END" ∧
      v.records = some (header :: (code ++ [finish])) ∧ Patched table body code ρ := by
  obtain ⟨rs, hrecords⟩ := records_of_found h
  obtain ⟨first, body, last, rest, s₁, s', rfl, ⟨hfirst, -, -, hload, hlayout⟩, hb, hl, hsteps,
      ⟨hfin, hc⟩, -, hopen, rfl, -⟩ :=
    cut_of_trace h.1 h.2.1 hrecords
  obtain ⟨ρ₁, hprogress₁⟩ := (Progress.start hload hlayout).steps hsizes hb hsteps
  obtain ⟨s₂, ρ, hprogress, hbl⟩ := hprogress₁.line_cases (by simp [hl]) hfin hc
  rw [(Statement.ofMnemonic_eq_finish_iff _ _ _).2 hl] at hbl
  obtain rfl := Except.ok.inj hbl
  obtain ⟨header, rs, hrs, hlength, hcarries⟩ := hprogress.records
  have hclosed :=
    (State.openProblems_eq_nil_iff hprogress.accounts fun x b hx =>
      (hprogress.addresses x b hx).1).1 hopen
  refine ⟨first, body, last, rest, setLength (s₂.counter - s₂.origin) header,
    rs.map (setLength (s₂.counter - s₂.origin)), .finish (s₂.entryPoint last), ρ, rfl, hfirst, hb,
    hl, ?_, ?_⟩
  · rw [hrecords, State.endLine, hrs]
    rfl
  · refine ⟨by rw [List.length_map]; exact hlength, fun i l r hl hr => ?_, fun x hx => ?_, ?_, ?_,
      fun l hl x hx => ?_⟩
    · rw [List.getElem?_map] at hr
      obtain ⟨r₀, hr₀, rfl⟩ := Option.map_eq_some_iff.1 hr
      exact (hcarries i l r₀ hl hr₀).setLength _
    · exact (hprogress.labels x).2 (List.mem_append_left _ hx)
    · exact hprogress.distinct.of_append_left
    · exact fun x b hx => (hprogress.addresses x b hx).2
    · by_contra hnone
      exact not_mem_of_referencePlaces (hclosed x (by simpa using hnone)) hl hx

/-- The digits of a field with a form fill the size of the command, unless a character is larger
than a byte. -/
theorem Formed.fills {next size : Int} {ops : List Operand} {f : String}
    (h : Formed ρ next size ops f) (haddresses : ∀ x b, ρ x = some b → InMemory b)
    (hclosed : ∀ x, .direct x ∈ ops → (ρ x).isSome = true)
    (hchars : ∀ t, .chars t ∈ ops → ∀ c ∈ t.toList, c.toNat ≤ 0xFF)
    (hwritten : ∀ op ∈ ops, op.WellWritten) :
    (2 + f.length : Int) = 2 * size ∧ ∀ c ∈ f.toList, Text.isHexadecimal c = true := by
  by_cases hdirect : ∃ x, .direct x ∈ ops
  · obtain ⟨x, hx⟩ := hdirect
    obtain ⟨hops, rfl⟩ | ⟨hops, -⟩ := h.admitted.reference hx rfl
    · obtain ⟨b, hb⟩ := Option.isSome_iff_exists.1 (hclosed x hx)
      obtain ⟨letters, rfl⟩ := (holdsAddress_some hb).1 (h.address x hops)
      rw [(haddresses x b hb).length_hex]
      exact ⟨rfl, Text.isHexadecimal_hex letters 6 (haddresses x b hb).1⟩
    · simp [hops] at hx
  · have hdigits := h.constant (not_exists.1 hdirect)
    have hnone : ∀ (x : String) (a : Int), (fun _ : String => (none : Option Int)) x = some a →
        InMemory a := nofun
    constructor
    · refine (h.admitted.length_digits_iff hnone hdigits).2 fun hover => ?_
      cases hover with
      | character c hc =>
        have hle := hchars (.singleton c) (List.mem_singleton_self _) c (by simp)
        omega
      | distance x target hx => cases hx
    · obtain ⟨vs, hvs, rfl⟩ := Option.map_eq_some_iff.1 hdigits
      exact FieldWidth.isHexadecimal_digits _
        (operandValues?_nonneg hnone hwritten h.admitted.number_nonneg hvs)

/-- The number in the operand field of a record, if there are digits in it and nothing else. -/
def operandValue? : ObjectRecord → Option Nat
  | .code _ _ _ field =>
    if field.toList ≠ [] ∧ ∀ c ∈ field.toList, Text.isHexadecimal c = true
      then some (Text.valueOf 16 field.toList) else none
  | _ => none

theorem HoldsAddress.operandValue {x : String} {b : Int} {f : String} (h : HoldsAddress ρ x f)
    (hx : ρ x = some b) (hb : 0 ≤ b) (a size byte : Int) :
    operandValue? (.code a size byte f) = some b.toNat := by
  obtain ⟨letters, rfl⟩ := (holdsAddress_some hx).1 h
  have hne : (Text.hex letters 6 b).toList ≠ [] := by
    intro hnil
    have hsix := Text.le_length_hex letters 6 b
    rw [← String.length_toList, hnil] at hsix
    cases hsix
  have hvalue := Text.valueOf_hex letters 6 hb
  rw [operandValue?, if_pos ⟨hne, Text.isHexadecimal_hex letters 6 hb⟩]
  exact congrArg some (by omega)

theorem operandValue?_none (a size byte : Int) :
    operandValue? (.code a size byte "None") = none := by
  rw [operandValue?, if_neg]
  rintro ⟨-, hdigits⟩
  exact absurd (hdigits 'N' (by decide)) (by decide)

namespace Patched

variable {body : List Line} {code : List ObjectRecord} {op : Operation} {r : ObjectRecord} {i : Nat}

theorem fills_iff (h : Patched table body code ρ) (hopcode : 0 ≤ op.opcode ∧ op.opcode ≤ 63)
    (hchars : ∀ t, .chars t ∈ l.operands → ∀ c ∈ t.toList, c.toNat ≤ 0xFF) (hl : body[i]? = some l)
    (hr : code[i]? = some r) (hop : Statement.ofMnemonic .absolute table l.mnemonic = .command op) :
    ∃ a digits, r.text .patched = "T " ++ Text.address a ++ " " ++ Text.decimal op.size ++ " " ++
      digits ∧
      (l.WellWritten →
        ((digits.length : Int) = 2 * op.size ∧ (∀ c ∈ digits.toList, Text.isHexadecimal c = true) ↔
          op.size ≠ 3)) := by
  obtain ⟨a, f, rfl, hthree, hother⟩ := h.records i l r hl hr op hop
  have hbyte := codeByte_bounds hopcode l.operands
  have hlength :
      (Text.hex .upper 2 (codeByte op.opcode l.operands) ++ f).length = 2 + f.length := by
    rw [String.length_append, Text.length_hex hbyte.1 (by decide) hbyte.2]
  refine ⟨a, Text.hex .upper 2 (codeByte op.opcode l.operands) ++ f, ?_, ?_⟩
  · simp only [ObjectRecord.text, String.append_assoc]
    rfl
  · intro hwritten
    rw [hlength]
    constructor
    · rintro ⟨hfills, hhex⟩ h3
      obtain ⟨c, hc, hnot⟩ := (hthree h3).misfit (by omega)
      rw [hhex c (by rw [String.toList_append]; exact List.mem_append_right _ hc)] at hnot
      cases hnot
    · intro h3
      obtain ⟨hfills, hhex⟩ :=
        (hother h3).fills h.addresses (h.closed l (List.mem_of_getElem? hl)) hchars hwritten
      refine ⟨by rw [← hfills, Nat.cast_add]; rfl, fun c hc => ?_⟩
      rw [String.toList_append, List.mem_append] at hc
      obtain hc | hc := hc
      · exact Text.isHexadecimal_hex .upper 2 hbyte.1 c hc
      · exact hhex c hc

/-- A reference from before the line of a label has its address for a value.  A later one has it
too, but for three bytes. -/
theorem references (h : Patched table body code ρ) {j k : Nat} {l' d : Line} {r' : ObjectRecord}
    {x : String} (hik : i < k) (hkj : k ≤ j) (hd : body[k]? = some d) (hname : d.name? = some x)
    (hl : body[i]? = some l) (hr : code[i]? = some r)
    (hop : Statement.ofMnemonic .absolute table l.mnemonic = .command op)
    (hx : l.operands = [.direct x]) (hl' : body[j]? = some l') (hr' : code[j]? = some r')
    (hop' : Statement.ofMnemonic .absolute table l'.mnemonic = .command op)
    (hx' : l'.operands = [.direct x]) :
    ∃ b, operandValue? r = some b ∧ operandValue? r' = if op.size = 3 then none else some b := by
  obtain ⟨b, hb⟩ := Option.isSome_iff_exists.1
    (h.labels x (List.mem_filterMap.2 ⟨d, List.mem_of_getElem? hd, hname⟩))
  have hpos := (h.addresses x b hb).1
  have hunknown : x ∉ labelsOf (body.take (i + 1)) := by
    have hdistinct := h.distinct
    rw [← List.take_append_drop (i + 1) body, labelsOf, List.filterMap_append] at hdistinct
    refine fun hmem => List.disjoint_of_nodup_append hdistinct hmem
      (List.mem_filterMap.2 ⟨d, ?_, hname⟩)
    refine List.mem_of_getElem? (i := k - (i + 1)) ?_
    rw [List.getElem?_drop, ← hd]
    congr 1
    omega
  have hknown : x ∈ labelsOf (body.take (j + 1)) := by
    refine List.mem_filterMap.2 ⟨d, List.mem_of_getElem? (i := k) ?_, hname⟩
    rwa [List.getElem?_take_of_lt (by omega)]
  obtain ⟨a, f, rfl, hthree, hother⟩ := h.records i l r hl hr op hop
  obtain ⟨a', f', rfl, hthree', hother'⟩ := h.records j l' r' hl' hr' op hop'
  by_cases h3 : op.size = 3
  · obtain rfl := (hthree' h3).known x hx' hknown
    refine ⟨_, ((hthree h3).unknown x hx hunknown).operandValue hb hpos _ _ _, ?_⟩
    rw [if_pos h3, operandValue?_none]
  · refine ⟨_, ((hother h3).address x hx).operandValue hb hpos _ _ _, ?_⟩
    rw [if_neg h3]
    exact ((hother' h3).address x hx').operandValue hb hpos _ _ _

end Patched

/-- Of every accepted program in direct names, over a sheet without problems, the code of a
well-written command has two digits for each byte and nothing else just if it is not a command of
three bytes.  A command with one name for operand has the address of the name for a value where it
stands before the line of this name.  At this line and behind it the same command has it too, or no
value at all if it takes three bytes. -/
theorem commands_filled_iff (sheet : List SheetRow) (reading : Sheet.Reading)
    (hread : Sheet.read ⟨.absolute, .onePass⟩ (Dialect.sizes ⟨.absolute, .onePass⟩) sheet =
      .ok reading)
    (hproblems : reading.problems = []) (program : List Line)
    (hchars : ∀ l ∈ program, ∀ t, .chars t ∈ l.operands → ∀ c ∈ t.toList, c.toNat ≤ 0xFF)
    (v : Snapshot)
    (haccepted : (traceProgram .absolute reading.table (.ofIndex 0) program).AcceptedWith v) :
    ∃ (first : Line) (body : List Line) (last : Line) (rest : List Line) (header : ObjectRecord)
        (code : List ObjectRecord) (finish : ObjectRecord),
        program = first :: (body ++ last :: rest) ∧ first.mnemonic = "START" ∧
      (∀ l ∈ body, l.mnemonic ≠ "START" ∧ l.mnemonic ≠ "END") ∧ last.mnemonic = "END" ∧
      v.records = some (header :: (code ++ [finish])) ∧ code.length = body.length ∧
      (∀ (i : Nat) (l : Line) (r : ObjectRecord) (op : Operation), body[i]? = some l →
        code[i]? = some r →
        Statement.ofMnemonic .absolute reading.table l.mnemonic = .command op →
        ∃ a digits, r.text Layout.absolute.traceStyle =
            "T " ++ Text.address a ++ " " ++ Text.decimal op.size ++ " " ++ digits ∧
          (l.WellWritten →
            ((digits.length : Int) = 2 * op.size ∧
              (∀ c ∈ digits.toList, Text.isHexadecimal c = true) ↔ op.size ≠ 3))) ∧
      ∀ (i j k : Nat) (l l' d : Line) (r r' : ObjectRecord) (op : Operation) (x : String),
      i < k → k ≤ j →
        body[i]? = some l → code[i]? = some r → body[j]? = some l' → code[j]? = some r' →
        body[k]? = some d → d.name? = some x → l.mnemonic = l'.mnemonic →
        Statement.ofMnemonic .absolute reading.table l.mnemonic = .command op →
        l.operands = [.direct x] → l'.operands = [.direct x] →
        ∃ b, operandValue? r = some b ∧ operandValue? r' = if op.size = 3 then none
          else some b := by
  have hoperations : ∀ m op, reading.table.get? m = some op → (0 ≤ op.opcode ∧ op.opcode ≤ 63) ∧
      op.size ∈ allSizes :=
    fun m op hop => Sheet.operation_of_read hread hproblems hop
  obtain ⟨first, body, last, rest, header, code, finish, ρ, rfl, hfirst, hbody, hlast, hrecords,
      hpatched⟩ :=
    patched_of_accepted (fun m op hop => (hoperations m op hop).2) haccepted
  refine ⟨first, body, last, rest, header, code, finish, rfl, hfirst, hbody, hlast, hrecords,
    hpatched.length_eq, ?_, ?_⟩
  · intro i l r op hl hr hop
    refine hpatched.fills_iff (hoperations _ op (Statement.stands_of_eq hop).1).1
      (hchars l ?_) hl hr hop
    exact List.mem_cons_of_mem _ (List.mem_append_left _ (List.mem_of_getElem? hl))
  · intro i j k l l' d r r' op x hik hkj hl hr hl' hr' hd hname hsame hop hx hx'
    exact hpatched.references hik hkj hd hname hl hr hop hx hl' hr' (hsame ▸ hop) hx'

/-- A command of three bytes and one of four. -/
def jumpSheet : List SheetRow :=
  [⟨some "JMP", some "1", some "3"⟩, ⟨some "LDA", some "2", some "4"⟩]

/-- Both commands refer to a label before its line and again from there on. -/
def jumpsAround : List Line :=
  [⟨some "P", ⟨"START", [.number 1]⟩⟩, ⟨none, ⟨"JMP", [.direct "X"]⟩⟩,
    ⟨none, ⟨"LDA", [.direct "X"]⟩⟩, ⟨some "X", ⟨"JMP", [.direct "X"]⟩⟩,
    ⟨none, ⟨"LDA", [.direct "X"]⟩⟩, ⟨none, ⟨"END", []⟩⟩]

/-- The first command has the address and then no value, the second has the address twice. -/
theorem jumpsAround_filled :
    ∃ reading v, Sheet.read ⟨.absolute, .onePass⟩ (Dialect.sizes ⟨.absolute, .onePass⟩) jumpSheet =
      .ok reading ∧
      reading.problems = [] ∧
      (∀ l ∈ jumpsAround, ∀ t, .chars t ∈ l.operands → ∀ c ∈ t.toList, c.toNat ≤ 0xFF) ∧
      (traceProgram .absolute reading.table (.ofIndex 0) jumpsAround).AcceptedWith v ∧
      ∃ header jump load jump' load' finish,
      v.records = some [header, jump, load, jump', load', finish] ∧
        (∃ b, operandValue? jump = some b ∧ operandValue? jump' = none) ∧
        (∃ b, operandValue? load = some b ∧ operandValue? load' = some b) ∧
        (∃ a digits, jump'.text .patched = "T " ++ Text.address a ++ " " ++ Text.decimal 3 ++ " " ++
          digits ∧
          ¬((digits.length : Int) = 6 ∧ ∀ c ∈ digits.toList, Text.isHexadecimal c = true)) ∧
        ∃ a digits, load'.text .patched = "T " ++ Text.address a ++ " " ++ Text.decimal 4 ++ " " ++
          digits ∧
          digits.length = 8 ∧ ∀ c ∈ digits.toList, Text.isHexadecimal c = true := by
  have hchars : ∀ l ∈ jumpsAround, ∀ t, .chars t ∈ l.operands → ∀ c ∈ t.toList, c.toNat ≤ 0xFF := by
    simp [jumpsAround, Line.operands]
  have hwritten : ∀ l ∈ jumpsAround, l.WellWritten := by
    simp [jumpsAround, Line.WellWritten, Operand.WellWritten, Line.operands]
  obtain ⟨reading, v, hread, hproblems, haccepted, htable, header, jump, load, jump', load', finish,
      hrecords⟩ :
      ∃ reading v,
        Sheet.read ⟨.absolute, .onePass⟩ (Dialect.sizes ⟨.absolute, .onePass⟩) jumpSheet =
          .ok reading ∧
        reading.problems = [] ∧
        (traceProgram .absolute reading.table (.ofIndex 0) jumpsAround).AcceptedWith v ∧
        reading.table = .ofTriples [("JMP", 1, 3), ("LDA", 2, 4)] ∧
        ∃ header jump load jump' load' finish,
        v.records = some [header, jump, load, jump', load', finish] :=
    ⟨_, _, by rfl, by rfl, ⟨by rfl, by rfl, by rfl⟩, by rfl, _, _, _, _, _, _, by rfl⟩
  obtain ⟨first, body, last, rest, header', code, finish', hprogram, -, -, -, hrecords', hlength,
      hfills, hreferences⟩ :=
    commands_filled_iff jumpSheet reading hread hproblems jumpsAround hchars v haccepted
  obtain ⟨rfl, hcode⟩ := List.cons.inj (Option.some.inj (hrecords.symm.trans hrecords'))
  have hcode : [jump, load, jump', load'] ++ [finish] = code ++ [finish'] := hcode
  obtain ⟨rfl, -⟩ := List.append_inj' hcode rfl
  have hbody : jumpsAround.tail.take 4 ++ jumpsAround.drop 5 = body ++ last :: rest :=
    (List.cons.inj hprogram).2
  obtain ⟨rfl, -⟩ := List.append_inj hbody hlength
  have hjump : Statement.ofMnemonic .absolute reading.table "JMP" = .command ⟨1, 3⟩ := by
    rw [htable]; rfl
  have hload : Statement.ofMnemonic .absolute reading.table "LDA" = .command ⟨2, 4⟩ := by
    rw [htable]; rfl
  have hjumps :=
    hreferences 0 2 2 _ _ _ _ _ _ "X" (by decide) (by decide) rfl rfl rfl rfl rfl rfl rfl
      hjump rfl rfl
  have hloads :=
    hreferences 1 3 2 _ _ _ _ _ _ "X" (by decide) (by decide) rfl rfl rfl rfl rfl rfl rfl
      hload rfl rfl
  obtain ⟨a, digits, htext, hmisfit⟩ := hfills 2 _ _ _ rfl rfl hjump
  obtain ⟨a', digits', htext', hfit⟩ := hfills 3 _ _ _ rfl rfl hload
  obtain ⟨hlength', hhex⟩ := (hfit (hwritten _ (by decide))).2 (by decide)
  refine ⟨reading, v, hread, hproblems, hchars, haccepted, _, _, _, _, _, _, hrecords, hjumps,
    hloads, ⟨a, digits, htext, ?_⟩, a', digits', htext', Int.ofNat.inj hlength', hhex⟩
  exact fun hall => (hmisfit (hwritten _ (by decide))).1 hall rfl

end Absolute

end OnePass

end Assembler
