import Mathlib.Tactic.Common
import Assembler.Proofs.Reports

/-! # The operands a command may have

`Admitted size ops` lists the operands that a command of a size takes; `operandProblems_eq_nil_iff`
says that these are exactly the ones nothing is wrong with.  Their digits in the object code are
those of their values, `operandDigits?`, in the one width that the size leaves room for.  This holds
of a field made from a complete table of names (`Field.ofOperands_admitted`) and of one that stays
empty while a name in it is open (`Field.pending_admitted`). -/

namespace Assembler
set_option autoImplicit false

/-- The operands that a command of a size takes. -/
inductive Admitted : Int → List Operand → Prop
  | nothing : Admitted 1 []
  | byte (v : Int) : 0 ≤ v → v ≤ 0xFF → Admitted 2 [.number v]
  | registers (i j : Int) : Admitted 2 [.register i, .register j]
  | character (op : Operand) : op.isString = true → op.size ≤ 1 → Admitted 2 [op]
  | distance (name : String) : Admitted 3 [.relative name]
  | address (name : String) : Admitted 4 [.direct name]
  | number (v : Int) : InMemory v → Admitted 4 [.number v]
  | text (op : Operand) (v : Int) : op.isString = true → op.stringValue = .ok v → InMemory v →
      Admitted 4 [op]

/-- The first direct name among operands. -/
def directName? : List Operand → Option String
  | [] => none
  | .direct x :: _ => some x
  | _ :: ops => directName? ops

/-- The addressing of an admitted command is direct if it has a direct name. -/
theorem Admitted.addressing_eq_direct_iff {size : Int} {ops : List Operand}
    (h : Admitted size ops) :
    Addressing.ofOperands ops = .direct ↔ (directName? ops).isSome = true := by
  cases h with
  | character op => cases op <;> simp [Addressing.ofOperands, Operand.kind, directName?]
  | text op => cases op <;> simp [Addressing.ofOperands, Operand.kind, directName?]
  | _ => simp [Addressing.ofOperands, Operand.kind, directName?]

theorem Admitted.toList_directName? {size : Int} {ops : List Operand} (h : Admitted size ops) :
    (if Addressing.ofOperands ops = .direct then ops.map Operand.text else []) =
      (directName? ops).toList := by
  cases h with
  | character op => cases op <;> rfl
  | text op => cases op <;> rfl
  | _ => rfl

theorem Admitted.operands_of_directName? {size : Int} {ops : List Operand} (h : Admitted size ops)
    {x : String} (hx : directName? ops = some x) : ops = [.direct x] := by
  cases h with
  | character op hop => cases op <;> simp [directName?, Operand.isString] at hx hop
  | text op v hop => cases op <;> simp [directName?, Operand.isString] at hx hop
  | address y =>
    obtain rfl : y = x := Option.some.inj hx
    rfl
  | _ => cases hx

/-- The sizes that commands of a layout have; distances are unknown in absolute programs. -/
def Layout.commandSizes : Layout → List Int
  | .absolute => absoluteSizes
  | _ => allSizes

theorem Layout.mem_commandSizes {layout : Layout} {size : Int} (hs : size ∈ layout.commandSizes) :
    size = 1 ∨ size = 2 ∨ (size = 3 ∧ layout ≠ .absolute) ∨ size = 4 := by
  cases layout <;> simp [commandSizes, absoluteSizes, allSizes] at hs ⊢ <;> omega

theorem size_le_one_of_stringProblems {op : Operand}
    (h : (if 1 < op.size then op.stringValue.map fun v => [Problem.stringTooLong v] else .ok []) =
      .ok []) :
    op.size ≤ 1 := by
  by_contra hs
  rw [if_pos (by omega), map_eq_ok_iff] at h
  obtain ⟨v, -, hv⟩ := h
  cases hv

theorem inMemory_of_stringProblems {op : Operand} {role : AddressRole}
    (h : (op.stringValue.map fun v => rangeProblems v role) = .ok []) :
    ∃ v, op.stringValue = .ok v ∧ InMemory v := by
  rw [map_eq_ok_iff] at h
  obtain ⟨v, hv, hr⟩ := h
  exact ⟨v, hv, (rangeProblems_eq_nil_iff v role).1 hr⟩

theorem operandProblems_eq_ok_iff (layout : Layout) (m : String) (size : Int) (ops : List Operand)
    (ps : List Problem) :
    operandProblems layout m size ops = .ok ps ↔
      Text.hasDecimal size = true ∧ formProblems layout m size ops = .ok ps := by
  unfold operandProblems
  split <;> simp_all

theorem hasDecimal_commandSize {layout : Layout} {size : Int} (hs : size ∈ layout.commandSizes) :
    Text.hasDecimal size = true := by
  rcases Layout.mem_commandSizes hs with rfl | rfl | ⟨rfl, -⟩ | rfl <;> decide +kernel

theorem admitted_of_formProblems {layout : Layout} {size : Int} (hs : size ∈ layout.commandSizes)
    {m : String} {ops : List Operand} (h : formProblems layout m size ops = .ok []) :
    Admitted size ops := by
  rcases Layout.mem_commandSizes hs with rfl | rfl | ⟨rfl, hl⟩ | rfl
  · cases ops with
    | nil => exact .nothing
    | cons op ops => simp [formProblems] at h
  · simp only [formProblems] at h
    rcases ops with _ | ⟨op, _ | ⟨op', _ | ⟨op'', ops⟩⟩⟩
    · simp at h
    · cases op with
      | number v =>
        by_cases hv : 0 ≤ v ∧ v ≤ 0xFF
        · exact .byte v hv.1 hv.2
        · simp [hv] at h
      | chars s =>
        exact .character _ rfl (size_le_one_of_stringProblems (by simpa [Operand.isString] using h))
      | hex s =>
        exact .character _ rfl (size_le_one_of_stringProblems (by simpa [Operand.isString] using h))
      | _ => simp [Operand.isString] at h
    · cases op <;> cases op' <;> simp at h
      exact .registers _ _
    · cases op <;> cases op' <;> simp at h
  · rcases ops with _ | ⟨op, _ | ⟨op', ops⟩⟩
    · cases layout <;> simp [formProblems] at h hl
    · cases op <;> cases layout <;> simp [formProblems] at h hl <;> exact .distance _
    · cases op <;> cases layout <;> simp [formProblems] at h hl
  · simp only [formProblems] at h
    rcases ops with _ | ⟨op, _ | ⟨op', ops⟩⟩
    · simp at h
    · cases op with
      | direct name => exact .address name
      | number v => exact .number v (by simpa using h)
      | chars s =>
        obtain ⟨v, hv, hm⟩ := inMemory_of_stringProblems (by simpa [Operand.isString] using h)
        exact .text _ v rfl hv hm
      | hex s =>
        obtain ⟨v, hv, hm⟩ := inMemory_of_stringProblems (by simpa [Operand.isString] using h)
        exact .text _ v rfl hv hm
      | _ => simp [Operand.isString] at h
    · cases op <;> simp at h

theorem formProblems_of_admitted {layout : Layout} {size : Int} (hs : size ∈ layout.commandSizes)
    (m : String) {ops : List Operand} (h : Admitted size ops) :
    formProblems layout m size ops = .ok [] := by
  cases h with
  | nothing => rfl
  | byte v h0 h1 => simp [formProblems, h0, h1]
  | registers i j => rfl
  | character op hop hle => 
    cases op <;> simp [Operand.isString] at hop <;>
      simp [formProblems, Operand.isString, show ¬ 1 < _ from Nat.not_lt.2 hle]
  | distance name =>
    cases layout <;> simp [formProblems, Layout.commandSizes, absoluteSizes] at hs ⊢
  | address name => rfl
  | number v hv => simpa [formProblems] using hv
  | text op v hop hv hm =>
    cases op <;> simp [Operand.isString] at hop <;>
      simpa [formProblems, Operand.isString, hv] using hm

theorem operandProblems_eq_nil_iff {layout : Layout} {size : Int} (hs : size ∈ layout.commandSizes)
    (m : String) (ops : List Operand) : operandProblems layout m size ops = .ok [] ↔
    Admitted size ops :=
  (operandProblems_eq_ok_iff ..).trans
    ⟨fun h => admitted_of_formProblems hs h.2,
      fun h => ⟨hasDecimal_commandSize hs, formProblems_of_admitted hs m h⟩⟩

/-- Nothing is wrong with a command that has admitted operands and ends in memory. -/
theorem commandProblems_eq_nil_iff {layout : Layout} {size : Int} (hs : size ∈ layout.commandSizes)
    (a : Int) (m : String) (ops : List Operand) :
    commandProblems layout a m size ops = .ok [] ↔ Admitted size ops ∧ InMemory (a + size) := by
  rw [← operandProblems_eq_nil_iff hs m ops]
  unfold commandProblems
  cases h : operandProblems layout m size ops with
  | error x => simp
  | ok ps =>
    simp only [map_eq_ok_iff, List.append_eq_nil_iff, rangeProblems_eq_nil_iff, Except.ok.injEq]
    constructor
    · rintro ⟨qs, hq, rfl, hm⟩
      exact ⟨(Problem.eq_of_worded hq).symm, hm⟩
    · rintro ⟨rfl, hm⟩
      exact ⟨[], rfl, rfl, hm⟩

/-! ## Values -/

/-- What direct and relative names are worth at one place of a program, as far as that is known. -/
structure Reading where
  direct : String → Option Int
  relative : String → Option Int

/-- The reading of labels with known addresses, before the command at `next`. -/
def Reading.ofAddresses (ρ : String → Option Int) (next : Int) : Reading :=
  ⟨ρ, fun name => (ρ name).map (displacement · next)⟩

/-- The value of an operand, if the names in it are known and the string in it has one. -/
def Operand.value? (rd : Reading) : Operand → Option Int
  | .direct name => rd.direct name
  | .relative name => rd.relative name
  | .number v => some v
  | .register i => some (i % 16)
  | .chars s => (Operand.chars s).stringValue.toOption
  | .hex s => (Operand.hex s).stringValue.toOption

def operandValues? (rd : Reading) : List Operand → Option (List Int)
  | [] => some []
  | op :: ops => (op.value? rd).bind fun v => (operandValues? rd ops).map (v :: ·)

/-- The width that a size leaves room for. -/
def FieldWidth.ofSize (size : Int) (count : Nat) : FieldWidth :=
  if size = 1 then .nothing
  else if size = 2 then if count = 2 then .nibble else .byte
  else if size = 3 then .displacement
  else .address

/-- Numbers one after another in a width. -/
def FieldWidth.digits (w : FieldWidth) : List Int → String
  | [] => ""
  | v :: vs => w.format v ++ w.digits vs

/-- The digits of the operands of a command of a size. -/
def operandDigits? (rd : Reading) (size : Int) (ops : List Operand) : Option String :=
  (operandValues? rd ops).map (FieldWidth.ofSize size ops.length).digits

theorem operandDigits?_singleton (rd : Reading) (size : Int) (op : Operand) :
    operandDigits? rd size [op] = (op.value? rd).map (FieldWidth.ofSize size 1).format := by
  cases h : op.value? rd <;> simp [operandDigits?, operandValues?, h, FieldWidth.digits]

theorem operandDigits?_direct (rd : Reading) (x : String) :
    operandDigits? rd 4 [.direct x] = (rd.direct x).map Text.address :=
      operandDigits?_singleton rd 4 (.direct x)

theorem operandDigits?_relative (rd : Reading) (x : String) :
    operandDigits? rd 3 [.relative x] = (rd.relative x).map (Text.hex .upper 4) :=
      operandDigits?_singleton rd 3 (.relative x)

/-- A scope that knows what a reading does; a name that the reading does not know is a fault of the
given sort. -/
structure Scope.Knows (scope : Scope) (rd : Reading) (lacking : Fault → Prop) : Prop where
  direct : ∀ name v, rd.direct name = some v → scope.direct name = .ok (.number v)
  relative : ∀ name v, rd.relative name = some v → scope.relative name = .ok (.number v)
  direct_none : ∀ name, rd.direct name = none → ∃ x, scope.direct name = .error x ∧ lacking x
  relative_none : ∀ name, rd.relative name = none → ∃ x, scope.relative name = .error x ∧ lacking x

def Fault.IsUndefinedName (x : Fault) : Prop := ∃ d use name, x = .undefinedName d use name

/-! ## What the scopes of flat programs know -/

theorem Directory.value?_ofNames (names : OrderedMap String (Option Int)) (x : String) :
    (Directory.ofNames names).value? x = (names.get? x).map Value.ofAddress? := by
  simp [Directory.ofNames, Directory.value?]

/-- The scope of flat programs in two passes knows the labels of the listing. -/
theorem Scope.flat_knows (d : Dialect) (names : OrderedMap String Int) (next : Int) :
    (Scope.flat d (.ofSymbols (.flat (names.mapValues some))) next).Knows
      (.ofAddresses names.get? next)
      Fault.IsUndefinedName := by
  have hvalue :
      ∀ x, (Directory.ofSymbols (.flat (names.mapValues some))).value? x =
        (names.get? x).map .number := by
    intro x
    rw [Directory.ofSymbols, Directory.value?_ofNames, OrderedMap.get?_mapValues, Option.map_map]
    rfl
  constructor
  · intro x v h
    have hx : names.get? x = some v := h
    simp [flat, hvalue, hx]
  · intro x v h
    obtain ⟨a, ha, rfl⟩ := Option.map_eq_some_iff.1 h
    simp [flat, hvalue, ha]
  · intro x h
    have hx : names.get? x = none := h
    exact ⟨.undefinedName d .direct x, by simp [flat, hvalue, hx], d, .direct, x, rfl⟩
  · intro x h
    have hx : names.get? x = none := Option.map_eq_none_iff.1 h
    exact ⟨.undefinedName d .relative x, by simp [flat, hvalue, hx], d, .relative, x, rfl⟩

/-- The address that a name has so far. -/
def addressIn (names : OrderedMap String (Option Int)) (x : String) : Option Int :=
  (names.get? x).join

theorem Scope.knownDirect_eq (d : Dialect) (names : OrderedMap String (Option Int)) (x : String) :
    knownDirect d (.ofNames names) x = (addressIn names x).elim
      (.error (.undefinedName d .direct x)) (.ok ∘ .number) := by
  rw [knownDirect, Directory.value?_ofNames, addressIn]
  rcases names.get? x with _ | _ | a <;> rfl

/-- The scope of absolute programs in one pass knows the labels met so far, but no distances. -/
theorem Scope.absolute_knows (names : OrderedMap String (Option Int)) (next : Int) :
    (Scope.ofDialect ⟨.absolute, .onePass⟩ (.ofNames names) (some "") next).Knows
      ⟨addressIn names, fun _ => none⟩
      Fault.IsUndefinedName := by
  constructor
  · intro x v h
    have hx : addressIn names x = some v := h
    simp [ofDialect, knownDirect_eq, hx]
  · intro x v h
    cases h
  · intro x h
    have hx : addressIn names x = none := h
    exact ⟨.undefinedName ⟨.absolute, .onePass⟩ .direct x, by simp [ofDialect, knownDirect_eq, hx],
      _, _, _, rfl⟩
  · intro x h
    refine ⟨.undefinedName ⟨.absolute, .onePass⟩ .relative x, ?_, _, _, _, rfl⟩
    have hentry : ∃ y, (Directory.ofNames names).entry (some "") x = .error y := by
      simp only [Directory.ofNames, Directory.entry, OrderedMap.get?_emptyCollection]
      split <;> exact ⟨_, rfl⟩
    obtain ⟨y, hy⟩ := hentry
    simp [ofDialect, sectionRelative, hy]

/-- The scope of relocatable programs in one pass knows the labels met so far. -/
theorem Scope.relocatable_knows (names : OrderedMap String (Option Int)) (next : Int) :
    (Scope.ofDialect ⟨.relocatable, .onePass⟩ (.ofNames names) (some "") next).Knows
      (.ofAddresses (addressIn names) next)
      Fault.IsUndefinedName := by
  have hrel : ∀ d x, knownRelative d (.ofNames names) next x = (addressIn names x).elim
      (.error (.undefinedName d .relative x)) (fun a => .ok (.number (displacement a next))) := by
    intro d x
    rw [knownRelative, Directory.value?_ofNames, addressIn]
    rcases names.get? x with _ | _ | a <;> rfl
  constructor
  · intro x v h
    have hx : addressIn names x = some v := h
    simp [ofDialect, knownDirect_eq, hx]
  · intro x v h
    obtain ⟨a, ha, rfl⟩ := Option.map_eq_some_iff.1 h
    simp [ofDialect, hrel, ha]
  · intro x h
    have hx : addressIn names x = none := h
    exact ⟨.undefinedName ⟨.relocatable, .onePass⟩ .direct
      x, by simp [ofDialect, knownDirect_eq, hx], _, _, _, rfl⟩
  · intro x h
    have hx : addressIn names x = none := Option.map_eq_none_iff.1 h
    exact ⟨.undefinedName ⟨.relocatable, .onePass⟩ .relative x, by simp [ofDialect, hrel, hx], _,
      _, _, rfl⟩

namespace Operand

/-- An operand that is a string with a value, or no string. -/
def Legible (op : Operand) : Prop := op.isString = true → ∃ v, op.stringValue = .ok v

theorem value_of_isString (scope : Scope) {op : Operand} (h : op.isString = true) :
    op.value scope = op.stringValue.map .number := by
  cases op <;> first | rfl | cases h

theorem value?_of_isString (rd : Reading) {op : Operand} (h : op.isString = true) :
    op.value? rd = op.stringValue.toOption := by
  cases op <;> first | rfl | cases h

theorem stringValue_error {op : Operand} (hs : op.isString = true)
    (hv : ¬ ∃ v, op.stringValue = .ok v) :
    ∃ ds, op.stringValue = .error (.notHexadecimal ds) := by
  have hx : ∀ ds, (¬ ∃ v, hexValue ds = .ok v) → ∃ t, hexValue ds = .error (.notHexadecimal t) := by
    intro ds h
    unfold hexValue at h ⊢
    split at h
    · exact absurd ⟨_, rfl⟩ h
    · exact ⟨String.ofList ds, rfl⟩
  cases op with
  | chars s => exact hx _ hv
  | hex s => exact hx _ hv
  | _ => cases hs

variable {scope : Scope} {rd : Reading} {lacking : Fault → Prop}

theorem value_of_value? (hk : scope.Knows rd lacking) {op : Operand} {v : Int}
    (h : op.value? rd = some v) :
    op.value scope = .ok (.number v) := by
  by_cases hop : op.isString = true
  · rw [value?_of_isString rd hop] at h
    rw [value_of_isString scope hop]
    cases hv : op.stringValue with
    | error x => simp [hv, Except.toOption] at h
    | ok w => simp_all [Except.toOption]
  · cases op with
    | direct name => exact hk.direct name v h
    | relative name => exact hk.relative name v h
    | number n => cases h; rfl
    | register i => cases h; rfl
    | chars s => simp [isString] at hop
    | hex s => simp [isString] at hop

theorem value_of_value?_eq_none (hk : scope.Knows rd lacking) {op : Operand}
    (h : op.value? rd = none) :
    ∃ x, op.value scope = .error x ∧ (op.Legible → lacking x) := by
  by_cases hop : op.isString = true
  · rw [value?_of_isString rd hop] at h
    rw [value_of_isString scope hop]
    cases hv : op.stringValue with
    | error x => exact ⟨x, rfl, fun hl => by obtain ⟨v, hv'⟩ := hl hop; simp [hv] at hv'⟩
    | ok w => simp [hv, Except.toOption] at h
  · cases op with
    | direct name =>
      obtain ⟨x, hx, hlx⟩ := hk.direct_none name h
      exact ⟨x, hx, fun _ => hlx⟩
    | relative name =>
      obtain ⟨x, hx, hlx⟩ := hk.relative_none name h
      exact ⟨x, hx, fun _ => hlx⟩
    | number n => cases h
    | register i => cases h
    | chars s => simp [isString] at hop
    | hex s => simp [isString] at hop

theorem values_of_operandValues? (hk : scope.Knows rd lacking) {ops : List Operand} {vs : List Int}
    (h : operandValues? rd ops = some vs) : values scope ops = .ok (vs.map .number) := by
  induction ops generalizing vs with
  | nil => cases h; rfl
  | cons op ops ih =>
    simp only [operandValues?, Option.bind_eq_some_iff, Option.map_eq_some_iff] at h
    obtain ⟨v, hv, ws, hws, rfl⟩ := h
    simp [values, value_of_value? hk hv, ih hws]

theorem values_of_operandValues?_eq_none (hk : scope.Knows rd lacking) {ops : List Operand}
    (h : operandValues? rd ops = none) :
    ∃ x, values scope ops = .error x ∧ ((∀ op ∈ ops, op.Legible) → lacking x) := by
  induction ops with
  | nil => cases h
  | cons op ops ih =>
    cases hv : op.value? rd with
    | none =>
      obtain ⟨x, hx, hlx⟩ := value_of_value?_eq_none hk hv
      exact ⟨x, by simp [values, hx], fun hl => hlx (hl op List.mem_cons_self)⟩
    | some v =>
      simp only [operandValues?, hv, Option.bind_some, Option.map_eq_none_iff] at h
      obtain ⟨x, hx, hlx⟩ := ih h
      exact ⟨x, by simp [values, value_of_value? hk hv, hx],
        fun hl => hlx fun o ho => hl o (List.mem_cons_of_mem _ ho)⟩

/-- Only what a reading says of the name in an admitted command matters. -/
theorem value?_congr {size : Int} {ops : List Operand} (h : Admitted size ops) {rd rd' : Reading}
    (hd : ∀ x, ops = [.direct x] → rd.direct x = rd'.direct x)
    (hr : ∀ x, ops = [.relative x] → rd.relative x = rd'.relative x) :
    ∀ op ∈ ops, op.value? rd = op.value? rd' := by
  have hstring : ∀ op : Operand, op.isString = true → op.value? rd = op.value? rd' := by
    intro op hop
    rw [value?_of_isString rd hop, value?_of_isString rd' hop]
  cases h with
  | character op hop hle => simpa using hstring op hop
  | text op v hop hv hm => simpa using hstring op hop
  | distance x => simpa [value?] using hr x rfl
  | address x => simpa [value?] using hd x rfl
  | _ => simp [value?]

end Operand

theorem operandDigits?_congr {size : Int} {ops : List Operand} (h : Admitted size ops)
    {rd rd' : Reading} (hd : ∀ x, ops = [.direct x] → rd.direct x = rd'.direct x)
    (hr : ∀ x, ops = [.relative x] → rd.relative x = rd'.relative x) :
    operandDigits? rd size ops = operandDigits? rd' size ops := by
  have hvalues : ∀ os : List Operand, (∀ op ∈ os, op.value? rd = op.value? rd') →
      operandValues? rd os = operandValues? rd' os := by
    intro os hos
    induction os with
    | nil => rfl
    | cons op os ih =>
      rw [operandValues?, operandValues?, hos op List.mem_cons_self,
        ih fun o ho => hos o (List.mem_cons_of_mem _ ho)]
  rw [operandDigits?, hvalues ops (Operand.value?_congr h hd hr), operandDigits?]

/-! ## Digits -/

namespace FieldWidth

theorem digits_nothing (vs : List Int) : nothing.digits vs = "" := by
  induction vs with
  | nil => rfl
  | cons v vs ih => rw [digits, ih]; rfl

theorem formatAll_number (w : FieldWidth) (vs : List Int) :
    w.formatAll (vs.map .number) = .ok (w.digits vs) := by
  induction vs with
  | nil => rfl
  | cons v vs ih =>
    cases w with
    | nothing => rw [digits_nothing]; rfl
    | _ => simp [formatAll, digits, ih]

theorem ofSource?_admitted {size : Int} {ops : List Operand} (h : Admitted size ops) :
    ofSource? size ops = some (.ofSize size ops.length) := by
  cases h with
  | character op hop hle => cases op <;> first | rfl | cases hop
  | _ => rfl

theorem ofResolved?_admitted {size : Int} {ops : List Operand} (h : Admitted size ops)
    {vs : List Int} (hl : vs.length = ops.length) :
    ofResolved? size (vs.map .number) = some (.ofSize size ops.length) := by
  rcases vs with _ | ⟨v, _ | ⟨v', _ | ⟨v'', vs⟩⟩⟩ <;> cases h <;> first | rfl | simp at hl

end FieldWidth

namespace Field

variable {scope : Scope} {rd : Reading} {lacking : Fault → Prop} {size : Int} {ops : List Operand}

theorem strict_number (w : FieldWidth) (vs : List Int) :
    strict (some w) (vs.map .number) = .ok (some (w.digits vs)) := by
  simp [strict, FieldWidth.formatAll_number]

theorem lenient_number (w : FieldWidth) (vs : List Int) :
    lenient (some w) (vs.map .number) = .ok (some (w.digits vs)) := by
  simp [lenient, FieldWidth.formatAll_number]

/-- In two passes the field of admitted operands is that of their values. -/
theorem ofOperands_admitted (d : Dialect) (hk : scope.Knows rd lacking) (h : Admitted size ops)
    {ds : String} (hd : operandDigits? rd size ops = some ds) :
    ofOperands d scope size ops = .ok (some ds) := by
  simp only [operandDigits?, Option.map_eq_some_iff] at hd
  obtain ⟨vs, hvs, rfl⟩ := hd
  unfold ofOperands
  rw [Operand.values_of_operandValues? hk hvs, FieldWidth.ofSource?_admitted h]
  split
  · next x hx => cases hx
  · next ws hws =>
    cases hws
    split <;> first | exact strict_number _ _ | exact lenient_number _ _

/-- In two passes there is no field for operands without a value. -/
theorem ofOperands_error (d : Dialect) (hk : scope.Knows rd lacking)
    (hd : operandDigits? rd size ops = none) :
    ∃ x, ofOperands d scope size ops = .error x := by
  rw [operandDigits?, Option.map_eq_none_iff] at hd
  obtain ⟨x, hx, -⟩ := Operand.values_of_operandValues?_eq_none hk hd
  exact ⟨x, by simp [ofOperands, hx]⟩

/-- A field that may stay open is empty or is made of values. -/
theorem pending_eq_ok {width : Option FieldWidth} {field : Option String}
    (hk : scope.Knows rd lacking) (h : pending width scope ops = .ok field) :
    (operandValues? rd ops = none ∧ field = some "") ∨
      ∃ vs, operandValues? rd ops = some vs ∧ lenient width (vs.map .number) = .ok field := by
  unfold pending at h
  cases hvs : operandValues? rd ops with
  | none =>
    obtain ⟨fault, hfault, -⟩ := Operand.values_of_operandValues?_eq_none hk hvs
    rw [hfault] at h
    cases fault with
    | undefinedName => exact .inl ⟨rfl, (Except.ok.inj h).symm⟩
    | _ => cases h
  | some vs =>
    rw [Operand.values_of_operandValues? hk hvs] at h
    exact .inr ⟨vs, rfl, h⟩

/-- A field that may stay open is that of the values as soon as there are any, and empty before. -/
theorem pending_admitted {w : FieldWidth} (hk : scope.Knows rd Fault.IsUndefinedName)
    (hl : ∀ op ∈ ops, op.Legible)
    (hw : ∀ vs, operandValues? rd ops = some vs → w = .ofSize size ops.length) :
    pending (some w) scope ops = .ok (some ((operandDigits? rd size ops).getD "")) := by
  unfold pending operandDigits?
  cases hvs : operandValues? rd ops with
  | none =>
    obtain ⟨x, hx, hlx⟩ := Operand.values_of_operandValues?_eq_none hk hvs
    obtain ⟨d, use, name, rfl⟩ := hlx hl
    simp [hx]
  | some vs =>
    rw [Operand.values_of_operandValues? hk hvs, hw vs hvs]
    simp [lenient_number]

/-- A string without a value leaves no field open. -/
theorem pending_error (w : Option FieldWidth) (scope : Scope) (h : Admitted size ops)
    (hl : ¬ ∀ op ∈ ops, op.Legible) :
    ∃ x, pending w scope ops = .error x := by
  have hop : ∀ op : Operand, ¬ op.Legible → ∃ x, pending w scope [op] = .error x := by
    intro op hop
    obtain ⟨hs, hv⟩ := Classical.not_imp.1 hop
    obtain ⟨ds, hx⟩ := Operand.stringValue_error hs hv
    exact ⟨.notHexadecimal
      ds, by simp [pending, Operand.values, Operand.value_of_isString scope hs, hx]⟩
  cases h with
  | nothing => simp at hl
  | registers i j => exact absurd (by simp [Operand.Legible, Operand.isString]) hl
  | _ => exact hop _ (by simpa using hl)

end Field

end Assembler
