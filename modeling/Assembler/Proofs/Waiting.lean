import Mathlib.Data.List.Forall2
import Assembler.Proofs.FlatObject

/-! # References that wait

In one pass a reference to a label that has not been met waits for it.  `Ledger` says what the
tables of such a pass hold when some labels have been met and some references have been made: a
label met has its address, and a name referred to in advance has none but waits at the places of the
references.  `changeAll_placesWhere` says that filling the waiting places changes the records of
exactly these references. -/

namespace Assembler
set_option autoImplicit false

/-! ## The name a line refers to -/

/-- The name that a single operand refers to. -/
def referenceOf : List Operand → Option String
  | [op] => op.referredName?
  | _ => none

section

variable {layout : Layout} {table : OpTable} {use : NameUse} {size : Int} {ops : List Operand}

theorem referenceOf_of_isString {op : Operand} (h : op.isString = true) :
    referenceOf [op] = none := by
  cases op <;> first | rfl | cases h

theorem digits_isSome_of_isString {op : Operand} (h : op.isString = true) (rd : Reading)
    (size : Int) :
    (operandDigits? rd size [op]).isSome = true ↔ op.Legible := by
  simp only [operandDigits?, operandValues?, Operand.value?_of_isString rd h, Operand.Legible, h,
    true_implies]
  cases op.stringValue <;> simp [Except.toOption]

/-- The operands of an admitted command have digits if and only if its strings have values and its
name has an address. -/
theorem operandDigits?_isSome_iff (h : Admitted size ops) (ρ : String → Option Int) (next : Int) :
    (operandDigits? (.ofAddresses ρ next) size ops).isSome = true ↔
      (∀ o ∈ ops, o.Legible) ∧ ∀ x, referenceOf ops = some x → (ρ x).isSome = true := by
  have hstring : ∀ op : Operand, op.isString = true →
      ((operandDigits? (.ofAddresses ρ next) size [op]).isSome = true ↔
      (∀ o ∈ [op], o.Legible) ∧ ∀ x, referenceOf [op] = some x → (ρ x).isSome = true) := by
    intro op hop
    simp [digits_isSome_of_isString hop, referenceOf_of_isString hop]
  cases h with
  | character op hop hle => exact hstring op hop
  | text op v hop hv hm => exact hstring op hop
  | distance x =>
    cases h : ρ x <;>
      simp [operandDigits?, operandValues?, Operand.value?, Reading.ofAddresses, referenceOf,
        Operand.referredName?, Operand.Legible, Operand.isString, h]
  | address x =>
    cases h : ρ x <;>
      simp [operandDigits?, operandValues?, Operand.value?, Reading.ofAddresses, referenceOf,
        Operand.referredName?, Operand.Legible, Operand.isString, h]
  | _ =>
    simp [operandDigits?, operandValues?, Operand.value?, referenceOf, Operand.referredName?,
      Operand.Legible, Operand.isString]

end

/-- A name among the operands of an admitted command is its one operand. -/
theorem Admitted.reference {size : Int} {ops : List Operand} (h : Admitted size ops) {o : Operand}
    (ho : o ∈ ops) {x : String} (hx : o.referredName? = some x) :
    ops = [.direct x] ∧ size = 4 ∨ ops = [.relative x] ∧ size = 3 := by
  have hstring : ∀ op : Operand, op.isString = true → o ∈ [op] → False := by
    intro op hop ho
    have hnone := referenceOf_of_isString hop
    rw [← List.mem_singleton.1 ho, referenceOf, hx] at hnone
    cases hnone
  cases h with
  | character op hop hle => exact (hstring op hop ho).elim
  | text op v hop hv hm => exact (hstring op hop ho).elim
  | distance y =>
    obtain rfl := List.mem_singleton.1 ho
    exact .inr ⟨by rw [Option.some.inj hx], rfl⟩
  | address y =>
    obtain rfl := List.mem_singleton.1 ho
    exact .inl ⟨by rw [Option.some.inj hx], rfl⟩
  | nothing => cases ho
  | registers i j => rcases List.mem_cons.1 ho with rfl | ho <;> simp_all [Operand.referredName?]
  | _ => obtain rfl := List.mem_singleton.1 ho; cases hx

theorem mem_of_referenceOf {ops : List Operand} {x : String} (h : referenceOf ops = some x) :
    ∃ o ∈ ops, o.referredName? = some x := by
  unfold referenceOf at h
  split at h
  · next o => exact ⟨o, List.mem_singleton_self o, h⟩
  · cases h

/-- Every string among the operands has a value, if the line is a command. -/
def Line.Legible (layout : Layout) (table : OpTable) (l : Line) : Prop :=
  ∀ op, Statement.ofMnemonic layout table l.mnemonic = .command op → ∀ o ∈ l.operands, o.Legible

section

variable {layout : Layout} {table : OpTable} {use : NameUse} {p : Row × Int} {a : Int} {l : Line}

/-- A line that fits and refers to a name is a command with that name alone. -/
theorem command_of_reference (ht : table.Sized layout) (hfit : l.Fits layout table use a)
    {x : String} (h : referenceOf l.operands = some x) :
    ∃ op, Statement.ofMnemonic layout table l.mnemonic = .command op ∧
      (l.operands = [.direct x] ∧ op.size = 4 ∨ l.operands = [.relative x] ∧ op.size = 3) := by
  rcases hfit.cases with ⟨kind, al, hk, hal, -⟩ | ⟨op, hop, -⟩
  · obtain ⟨o, ho, hname⟩ := Storage.operands_of_allot hal
    simp [ho, referenceOf, hname] at h
  · obtain ⟨o, ho, hx⟩ := mem_of_referenceOf h
    exact ⟨op, hop, (hfit.admitted ht hop).reference ho hx⟩

/-- A line that fits and refers to no name has no names among its operands. -/
theorem referredName?_eq_none (ht : table.Sized layout) (hfit : l.Fits layout table use a)
    (h : referenceOf l.operands = none) :
    ∀ o ∈ l.operands, o.referredName? = none := by
  rcases hfit.cases with ⟨kind, al, hk, hal, -⟩ | ⟨op, hop, -⟩
  · obtain ⟨o, ho, hname⟩ := Storage.operands_of_allot hal
    simp [ho, hname]
  · have hadm := hfit.admitted ht hop
    refine fun o ho => Option.eq_none_iff_forall_ne_some.2 fun x hx => ?_
    rcases hadm.reference ho hx with ⟨hops, -⟩ | ⟨hops, -⟩ <;>
      simp [hops, referenceOf, Operand.referredName?] at h

/-- A line that fits has digits if and only if its strings have values and the name it refers to has
an address. -/
theorem fieldOf_isSome_iff (ht : table.Sized layout)
    (hfit : p.1.line.Fits layout table use p.1.address) (ρ : String → Option Int) :
    (fieldOf layout table ρ p).isSome = true ↔
      p.1.line.Legible layout table ∧ ∀ x, referenceOf p.1.line.operands = some x →
      (ρ x).isSome = true := by
  rcases hfit.cases with ⟨kind, al, hk, hal, -⟩ | ⟨op, hop, -⟩
  · obtain ⟨o, ho, hname⟩ := Storage.operands_of_allot hal
    simp [fieldOf, hk, Line.Legible, ho, referenceOf, hname]
  · have hadm := hfit.admitted ht hop
    simp only [fieldOf, hop, Line.Legible, Statement.command.injEq, forall_eq']
    exact operandDigits?_isSome_iff hadm ρ _

/-- Only the address of the name that a line refers to matters for its digits. -/
theorem fieldOf_congr (ht : table.Sized layout) (hfit : p.1.line.Fits layout table use p.1.address)
    {ρ ρ' : String → Option Int} (h : ∀ x, referenceOf p.1.line.operands = some x → ρ x = ρ' x) :
    fieldOf layout table ρ p = fieldOf layout table ρ' p := by
  rcases hfit.cases with ⟨kind, al, hk, hal, -⟩ | ⟨op, hop, -⟩
  · simp [fieldOf, hk]
  · have hadm := hfit.admitted ht hop
    simp only [fieldOf, hop]
    refine operandDigits?_congr hadm (fun x hx => ?_) (fun x hx => ?_)
    · exact h x (by rw [hx]; rfl)
    · exact congrArg (Option.map (displacement · _)) (h x (by rw [hx]; rfl))

end

/-! ## Places -/

/-- The places of the items that meet a condition, the first item having place `k`. -/
def placesWhere {β : Type} (P : β → Prop) [DecidablePred P] : Nat → List β → List (Option Nat)
  | _, [] => []
  | k, b :: bs => (if P b then [some k] else []) ++ placesWhere P (k + 1) bs

section

variable {β : Type} (P : β → Prop) [DecidablePred P]

theorem placesWhere_concat (k : Nat) (bs : List β) (b : β) :
    placesWhere P k (bs ++ [b]) = placesWhere P k bs ++ if P b then [some (k + bs.length)]
      else [] := by
  induction bs generalizing k with
  | nil => simp [placesWhere]
  | cons c bs ih => simp [placesWhere, ih, Nat.add_assoc, Nat.add_comm 1]

theorem placesWhere_map {γ : Type} (f : γ → β) (k : Nat) (cs : List γ) :
    placesWhere P k (cs.map f) = placesWhere (fun c => P (f c)) k cs := by
  induction cs generalizing k with
  | nil => rfl
  | cons c cs ih => simp [placesWhere, ih]

variable {P} in
theorem placesWhere_congr {Q : β → Prop} [DecidablePred Q] {bs : List β} (h : ∀ b ∈ bs, P b ↔ Q b)
    (k : Nat) :
    placesWhere P k bs = placesWhere Q k bs := by
  induction bs generalizing k with
  | nil => rfl
  | cons b bs ih =>
    simp [placesWhere, ih fun c hc => h c (List.mem_cons_of_mem _ hc), h b List.mem_cons_self]

theorem placesWhere_eq_nil_iff (k : Nat) (bs : List β) :
    placesWhere P k bs = [] ↔ ∀ b ∈ bs, ¬ P b := by
  induction bs generalizing k with
  | nil => simp [placesWhere]
  | cons c bs ih => simp [placesWhere, ih]

end

/-- The places of the references to a name. -/
abbrev placesOf (x : String) (k : Nat) (ps : List (Row × Int)) : List (Option Nat) :=
  placesWhere (fun p : Row × Int => referenceOf p.1.line.operands = some x) k ps

namespace OnePass

variable {α : Type}

theorem changeAt_append (f : α → Except Fault α) (pre : List α) (r : α) (rs : List α) :
    changeAt f (some pre.length) (pre ++ r :: rs) = (f r).map fun r' => pre ++ r' :: rs := by
  simp only [changeAt, Option.getD_some, List.getElem?_append_right (Nat.le_refl _), Nat.sub_self,
    List.getElem?_cons_zero]
  cases f r <;> simp

/-- Filling the places of some items changes their records and no others. -/
theorem changeAll_placesWhere {β : Type} {P : β → Prop} [DecidablePred P] {f : α → Except Fault α}
    {R R' : β → α → Prop} {bs : List β}
    (hf : ∀ b ∈ bs, ∀ r, R b r → P b → ∃ r', f r = .ok r' ∧ R' b r')
    (hkeep : ∀ b ∈ bs, ∀ r, R b r → ¬ P b → R' b r) (pre : List α) {rs : List α}
    (h : List.Forall₂ R bs rs) :
    ∃ rs', changeAll f (placesWhere P pre.length bs) (pre ++ rs) = .ok (pre ++ rs') ∧
      List.Forall₂ R' bs rs' := by
  induction h generalizing pre with
  | nil => exact ⟨[], rfl, .nil⟩
  | @cons b r bs rs hr hrs ih =>
    have ih :=
      ih (fun q hq => hf q (List.mem_cons_of_mem _ hq))
        (fun q hq => hkeep q (List.mem_cons_of_mem _ hq))
    by_cases hb : P b
    · obtain ⟨r', hr', hR⟩ := hf b List.mem_cons_self r hr hb
      obtain ⟨rs', hrs', hRs⟩ := ih (pre ++ [r'])
      refine ⟨r' :: rs', ?_, .cons hR hRs⟩
      simp only [placesWhere, hb, if_true, List.singleton_append, changeAll, changeAt_append,
        hr', map_ok]
      simpa using hrs'
    · obtain ⟨rs', hrs', hRs⟩ := ih (pre ++ [r])
      refine ⟨r :: rs', ?_, .cons (hkeep b List.mem_cons_self r hr hb) hRs⟩
      simpa [placesWhere, hb] using hrs'

/-- What a filling of places has done to the items and to the others. -/
theorem of_changeAll_placesWhere {β : Type} {P : β → Prop} [DecidablePred P]
    {f : α → Except Fault α} {g g' : β → α} {Q : β → Prop} {bs : List β}
    (hf : ∀ b ∈ bs, ∀ r, P b → f (g b) = .ok r → r = g' b ∧ Q b)
    (hkeep : ∀ b ∈ bs, ¬ P b → g b = g' b ∧ Q b) (pre : List α) {rs : List α}
    (h : changeAll f (placesWhere P pre.length bs) (pre ++ bs.map g) = .ok rs) :
    rs = pre ++ bs.map g' ∧ ∀ b ∈ bs, Q b := by
  induction bs generalizing pre with
  | nil => simpa [placesWhere, changeAll, eq_comm] using h
  | cons b bs ih =>
    have ih :=
      ih (fun c hc => hf c (List.mem_cons_of_mem _ hc)) fun c hc =>
        hkeep c (List.mem_cons_of_mem _ hc)
    have hnext :
        g' b = g' b ∧ Q b →
          changeAll f (placesWhere P (pre ++ [g' b]).length bs) ((pre ++ [g' b]) ++ bs.map g) =
            .ok rs →
        rs = pre ++ (b :: bs).map g' ∧ ∀ c ∈ b :: bs, Q c := by
      intro hb hrest
      obtain ⟨hrs, hQ⟩ := ih (pre ++ [g' b]) hrest
      exact ⟨by rw [hrs]; simp, List.forall_mem_cons.2 ⟨hb.2, hQ⟩⟩
    by_cases hb : P b
    · simp only [placesWhere, hb, if_true, List.singleton_append, changeAll, List.map_cons,
        changeAt_append] at h
      cases hfb : f (g b) with
      | error x => simp [hfb] at h
      | ok r =>
        obtain ⟨rfl, hQ⟩ := hf b List.mem_cons_self r hb hfb
        exact hnext ⟨rfl, hQ⟩ (by simpa [hfb] using h)
    · obtain ⟨hg, hQ⟩ := hkeep b List.mem_cons_self hb
      exact hnext ⟨rfl, hQ⟩ (by simpa [placesWhere, hb, hg] using h)

/-! ## The tables of names -/

/-- What the two tables say of a name with or without an address that is referred to in advance at
the given places. -/
def Recorded (address : Option Int) (places : List (Option Nat)) (named : Option (Option Int))
    (awaited : Option (List (Option Nat))) : Prop :=
  match address with
  | some a => named = some (some a) ∧ awaited = none
  | none =>
    if places = [] then named = none ∧ awaited = none else named = some none ∧ awaited = some places

/-- The tables of a pass that has met the labels `ρ`, when references to each name have been made at
the given places. -/
def Accounts (names : OrderedMap String (Option Int)) (waiting : Waiting) (ρ : String → Option Int)
    (places : String → List (Option Nat)) : Prop :=
  ∀ x, Recorded (ρ x) (places x) (names.get? x) (waiting.get? x)

namespace Accounts

variable {names : OrderedMap String (Option Int)} {waiting : Waiting} {ρ : String → Option Int}
  {places places' : String → List (Option Nat)} {x : String}

theorem addressIn_eq (h : Accounts names waiting ρ places) : addressIn names = ρ := by
  funext x
  have hx := h x
  unfold Recorded at hx
  unfold addressIn
  split at hx
  · next a ha => simp [hx.1, ha]
  · next ha => split at hx <;> simp [hx.1, ha]

theorem isOpen_eq (h : Accounts names waiting ρ places) (x : String) :
    isOpen names x = (ρ x).isNone := by
  rw [← h.addressIn_eq]
  unfold isOpen addressIn
  rcases names.get? x with _ | _ | a <;> rfl

theorem isTaken_eq (h : Accounts names waiting ρ places) (x : String) :
    isTaken names x = (ρ x).any (· != 0) := by
  rw [← h.addressIn_eq]
  unfold isTaken addressIn
  rcases names.get? x with _ | _ | a <;> rfl

/-- What waits for a name that has not been met is what refers to it. -/
theorem waiting_eq (h : Accounts names waiting ρ places) (hx : ρ x = none) :
    waiting.get? x = if places x = [] then none else some (places x) := by
  have := h x
  simp only [Recorded, hx] at this
  split at this
  · next hp => simp [this.2, hp]
  · next hp => simp [this.2, hp]

/-- A label is met, and nothing waits for it any more. -/
theorem note (h : Accounts names waiting ρ places) (a : Int) :
    Accounts (names.insert x (some a)) (waiting.erase x) (fun y => if x = y then some a else ρ y)
      places := by
  intro y
  by_cases hy : x = y
  · simp [hy, Recorded]
  · simpa [hy] using h y

/-- Nothing needs to be taken out for a name that nothing waits for. -/
theorem note_of_not_waiting (h : Accounts names waiting ρ places) (hw : waiting.get? x = none)
    (a : Int) :
    Accounts (names.insert x (some a)) waiting (fun y => if x = y then some a else ρ y) places := by
  intro y
  by_cases hy : x = y
  · subst hy
    simp [Recorded, hw]
  · simpa [hy] using h y

/-- References to labels that have been met leave the tables as they are. -/
theorem skip (h : Accounts names waiting ρ places) (hp : ∀ y, ρ y = none → places' y = places y) :
    Accounts names waiting ρ places' := by
  intro y
  have hy := h y
  cases hρ : ρ y with
  | some a => simpa [Recorded, hρ] using hy
  | none => rwa [hρ, ← hp y hρ] at hy

/-- A reference to an open name waits at its place. -/
theorem await (h : Accounts names waiting ρ places) (hx : ρ x = none) (place : Option Nat) :
    Accounts (names.insert x none) (waiting.add x place) ρ fun y => places y ++ if x = y
      then [place] else [] := by
  intro y
  by_cases hy : x = y
  · subst hy
    have hadd : (waiting.get? x).getD [] = places x := by
      rw [h.waiting_eq hx]
      split
      · next hpl => simp [hpl]
      · rfl
    simp [Waiting.add, Recorded, hx, hadd]
  · simpa [Waiting.add, hy] using h y

/-- Of names that are referred to at a place, the open ones wait there. -/
theorem awaitAll (h : Accounts names waiting ρ places) (place : Option Nat) (xs : List String) :
    Accounts (OnePass.awaitAll place names waiting xs).1 (OnePass.awaitAll place names waiting xs).2
      ρ fun y =>
      places y ++ List.replicate (xs.count y) place := by
  induction xs generalizing names waiting places with
  | nil =>
    refine h.skip fun y _ => ?_
    simp
  | cons x xs ih =>
    rw [OnePass.awaitAll, h.isOpen_eq]
    cases hx : ρ x with
    | none =>
      refine (ih (h.await hx place)).skip fun y _ => ?_
      by_cases hxy : x = y
      · simp [hxy, List.replicate_succ]
      · simp [hxy, List.count_cons_of_ne hxy]
    | some b =>
      refine (ih h).skip fun y hy => ?_
      have hxy : x ≠ y := by
        rintro rfl
        rw [hx] at hy
        cases hy
      rw [List.count_cons_of_ne hxy]

/-- Every name in the tables has an address if and only if nothing refers to a name without one. -/
theorem forall_keys_iff (h : Accounts names waiting ρ places) :
    (∀ x ∈ names.keys, (ρ x).isSome = true) ↔ ∀ y, ρ y = none → places y = [] := by
  simp only [OrderedMap.mem_keys_iff]
  constructor
  · intro hk x hρ
    by_contra hp
    have := h x
    simp [Recorded, hρ, hp] at this
    simpa [hρ] using hk x (by simp [this.1])
  · intro hc x hx
    by_contra hρ
    have hρ : ρ x = none := by simpa using hρ
    have := h x
    simp [Recorded, hρ, hc x hρ] at this
    simp [this.1] at hx

end Accounts

/-- The tables of a pass that has met the labels `ρ` and made the references of some rows, the first
of which has place 1. -/
def Ledger (names : OrderedMap String (Option Int)) (waiting : Waiting) (ρ : String → Option Int)
    (ps : List (Row × Int)) :
    Prop :=
  ∀ x, Recorded (ρ x) (placesOf x 1 ps) (names.get? x) (waiting.get? x)

namespace Ledger

variable {names : OrderedMap String (Option Int)} {waiting : Waiting} {ρ : String → Option Int}
  {ps : List (Row × Int)} {p : Row × Int} {x : String}

theorem empty : Ledger ∅ ∅ (fun _ => none) [] := fun _ => ⟨rfl, rfl⟩

theorem accounts (h : Ledger names waiting ρ ps) :
    Accounts names waiting ρ fun x => placesOf x 1 ps := h

theorem addressIn_eq (h : Ledger names waiting ρ ps) : addressIn names = ρ :=
  h.accounts.addressIn_eq

theorem isOpen_eq (h : Ledger names waiting ρ ps) (x : String) : isOpen names x = (ρ x).isNone :=
  h.accounts.isOpen_eq x

theorem isTaken_eq (h : Ledger names waiting ρ ps) (x : String) :
    isTaken names x = (ρ x).any (· != 0) :=
  h.accounts.isTaken_eq x

theorem waiting_eq (h : Ledger names waiting ρ ps) (hx : ρ x = none) :
    waiting.get? x = if placesOf x 1 ps = [] then none else some (placesOf x 1 ps) :=
      h.accounts.waiting_eq hx

theorem note (h : Ledger names waiting ρ ps) (a : Int) :
    Ledger (names.insert x (some a)) (waiting.erase x) (fun y => if x = y then some a else ρ y)
      ps := h.accounts.note a

theorem note_of_not_waiting (h : Ledger names waiting ρ ps) (hw : waiting.get? x = none) (a : Int) :
    Ledger (names.insert x (some a)) waiting (fun y => if x = y then some a else ρ y) ps :=
  h.accounts.note_of_not_waiting hw a

/-- A line without a name that is still open leaves the tables as they are. -/
theorem skip (h : Ledger names waiting ρ ps)
    (hp : ∀ y, referenceOf p.1.line.operands = some y → (ρ y).isSome = true) :
    Ledger names waiting ρ (ps ++ [p]) := by
  refine h.accounts.skip fun y hy => ?_
  have hne : referenceOf p.1.line.operands ≠ some y := fun hr => by simpa [hy] using hp y hr
  simp [placesWhere_concat, hne]

/-- A reference to an open name waits at the place of its line. -/
theorem await (h : Ledger names waiting ρ ps) (hp : referenceOf p.1.line.operands = some x)
    (hx : ρ x = none) :
    Ledger (names.insert x none) (waiting.add x (some (ps.length + 1))) ρ (ps ++ [p]) := by
  refine (h.accounts.await hx (some (ps.length + 1))).skip fun y _ => ?_
  simp [placesWhere_concat, hp, Nat.add_comm]

end Ledger

def Closed (ρ : String → Option Int) (ps : List (Row × Int)) : Prop :=
  ∀ p ∈ ps, ∀ y, referenceOf p.1.line.operands = some y → (ρ y).isSome = true

theorem closed_iff (ρ : String → Option Int) (ps : List (Row × Int)) :
    Closed ρ ps ↔ ∀ y, ρ y = none → placesOf y 1 ps = [] := by
  simp only [placesWhere_eq_nil_iff]
  constructor
  · intro h y hy p hp hr
    simpa [hy] using h p hp y hr
  · intro h p hp y hr
    by_contra hy
    exact h y (by simpa using hy) p hp hr

namespace Ledger

variable {names : OrderedMap String (Option Int)} {waiting : Waiting} {ρ : String → Option Int}
  {ps : List (Row × Int)}

theorem get?_of_closed (h : Ledger names waiting ρ ps) (hc : Closed ρ ps) (x : String) :
    names.get? x = (ρ x).map some ∧ waiting.get? x = none := by
  have hx := h x
  cases hρ : ρ x with
  | some a => simpa [Recorded, hρ] using hx
  | none => simpa [Recorded, hρ, (closed_iff ρ ps).1 hc x hρ] using hx

theorem closed_iff_waiting (h : Ledger names waiting ρ ps) : Closed ρ ps ↔ waiting.keys = [] := by
  rw [closed_iff, List.eq_nil_iff_forall_not_mem]
  simp only [OrderedMap.mem_keys_iff]
  constructor
  · intro hc x hx
    have := h x
    cases hρ : ρ x with
    | some a => simp [Recorded, hρ] at this; simp [this.2] at hx
    | none => simp [Recorded, hρ, hc x hρ] at this; simp [this.2] at hx
  · intro hk x hρ
    by_contra hp
    have := h x
    simp [Recorded, hρ, hp] at this
    exact hk x (by simp [this.2])

end Ledger

/-- In a flat program that nothing is wrong with every operand has digits if and only if every
string has a value and no reference is left waiting. -/
theorem resolved_iff {layout : Layout} {table : OpTable} {use : NameUse} (ht : table.Sized layout)
    {first : Line} {body : List Line} {last : Line}
    (hbody : BodyFits layout table use (layout.load first) (fun _ => none) body) :
    Resolved layout table first body last ↔
      (∀ l ∈ body, l.Legible layout table) ∧
        Closed (flatLabels layout table first body last) (flatRows layout table first body) ∧
        flatEntry layout first last ∈ flatAddresses layout table first body := by
  have hlines : (∀ l ∈ body, l.Legible layout table) ↔
      ∀ p ∈ flatRows layout table first body, p.1.line.Legible layout table := by
    rw [flatRows, ← List.forall_mem_map (f := fun p : Row × Int => p.1.line), placed_map_line]
  have hfields : (∀ p ∈ flatRows layout table first body,
      (fieldOf layout table (flatLabels layout table first body last) p).isSome = true) ↔ _ :=
    forall₂_congr fun p hp => fieldOf_isSome_iff ht (hbody.fits p hp) _
  rw [hlines]
  constructor
  · intro h
    have hf := hfields.1 h.fields
    exact ⟨fun p hp => (hf p hp).1, fun p hp => (hf p hp).2, h.entry⟩
  · rintro ⟨hlegible, hclosed, hentry⟩
    exact ⟨hfields.2 fun p hp => ⟨hlegible p hp, hclosed p hp⟩, hentry⟩

end OnePass

end Assembler
