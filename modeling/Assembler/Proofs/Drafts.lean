import Mathlib.Data.List.Forall2
import Mathlib.Data.Nat.Digits.Defs
import Assembler.OnePass.Draft
import Assembler.Proofs.HexLiterals
import Assembler.Proofs.Placement

/-! # Drafts and the records they give

A draft of a command holds its operands, each replaced by its value once that is known
(`Operand.settled`).  Printing such a draft gives the digits of the values, or an empty field while
a name is open (`Draft.record_settled`). -/

namespace Assembler
set_option autoImplicit false

/-! ## Values have decimal forms -/

theorem hasDecimal_of_hexValue {ds : List Char} {v : Int} (h : hexValue ds = .ok v)
    (hlen : ds.length ≤ 8) :
    Text.hasDecimal v = true := by
  have hlt := (natAbs_lt_of_hexValue h).trans_le (Nat.pow_le_pow_right (by decide) hlen)
  exact hasDecimal_of_natAbs_lt (by omega)

theorem hasDecimal_of_stringValue {op : Operand} (h1 : op.size ≤ 1) {v : Int}
    (hv : op.stringValue = .ok v) :
    Text.hasDecimal v = true := by
  cases op with
  | chars s =>
    refine hasDecimal_of_hexValue hv ?_
    simp only [Operand.size] at h1
    rcases hs : s.toList with _ | ⟨c, _ | ⟨c', cs⟩⟩
    · simp [charDigits, hs]
    · have hlt : c.toNat < 16 ^ 8 := c.val.toNat_lt
      have hlen := Nat.toDigits_length 16 c.toNat 8 (by decide) hlt
      simp [charDigits, hs, Text.padLeft, Text.digits]
      omega
    · simp [hs] at h1
  | hex s =>
    refine hasDecimal_of_hexValue hv ?_
    simp only [Operand.size] at h1
    omega
  | _ => cases hv

theorem hasDecimal_displacement {target next : Int} (ht : InMemory target) (hn : InMemory next) :
    Text.hasDecimal (displacement target next) = true := by
  obtain ⟨h1, h2⟩ := ht
  obtain ⟨h3, h4⟩ := hn
  unfold lastAddress at h2 h4
  unfold displacement
  split
  · exact hasDecimal_of_natAbs_lt (by omega)
  · exact hasDecimal_of_natAbs_lt (by omega)

/-! ## Operands replaced by their values -/

/-- An operand replaced by its value, if that is known. -/
def Operand.settled (rd : Reading) (op : Operand) : Operand :=
  match op.value? rd with
  | some v => .number v
  | none => op

theorem map_settled_congr {size : Int} {ops : List Operand} (h : Admitted size ops)
    {rd rd' : Reading} (hd : ∀ x, ops = [.direct x] → rd.direct x = rd'.direct x)
    (hr : ∀ x, ops = [.relative x] → rd.relative x = rd'.relative x) :
    ops.map (·.settled rd) = ops.map (·.settled rd') := by
  refine List.map_congr_left fun op hop => ?_
  rw [Operand.settled, Operand.settled, Operand.value?_congr h hd hr op hop]

theorem map_settled_of_values {rd : Reading} {ops : List Operand} {vs : List Int}
    (h : operandValues? rd ops = some vs) :
    ops.map (·.settled rd) = vs.map .number := by
  induction ops generalizing vs with
  | nil => cases h; rfl
  | cons op ops ih =>
    simp only [operandValues?, Option.bind_eq_some_iff, Option.map_eq_some_iff] at h
    obtain ⟨v, hv, ws, hws, rfl⟩ := h
    rw [List.map_cons, ih hws, Operand.settled, hv, List.map_cons]

theorem operandValues?_length {rd : Reading} {ops : List Operand} {vs : List Int}
    (h : operandValues? rd ops = some vs) :
    vs.length = ops.length := by
  have := congrArg List.length (map_settled_of_values h)
  simpa using this.symm

theorem operandValues?_number (rd : Reading) (vs : List Int) :
    operandValues? rd (vs.map .number) = some vs := by
  induction vs with
  | nil => rfl
  | cons v vs ih => simp [operandValues?, Operand.value?, ih]

theorem values_or_open {size : Int} {ops : List Operand} (h : Admitted size ops)
    (hl : ∀ op ∈ ops, op.Legible) (rd : Reading) :
    (∃ vs, operandValues? rd ops = some vs) ∨
      ∃ x, ops = [.direct x] ∧ rd.direct x = none ∨ ops = [.relative x] ∧ rd.relative x = none := by
  have hstring : ∀ op : Operand, op.isString = true → op.Legible →
      ∃ vs, operandValues? rd [op] = some vs := by
    intro op hop hlegible
    obtain ⟨v, hv⟩ := hlegible hop
    exact ⟨[v], by simp [operandValues?, Operand.value?_of_isString rd hop, hv, Except.toOption]⟩
  cases h with
  | character op hop hle => exact .inl (hstring op hop (hl op (by simp)))
  | text op v hop hv hm => exact .inl (hstring op hop (hl op (by simp)))
  | distance x =>
    cases hx : rd.relative x with
    | none => exact .inr ⟨x, .inr ⟨rfl, hx⟩⟩
    | some v => exact .inl ⟨[v], by simp [operandValues?, Operand.value?, hx]⟩
  | address x =>
    cases hx : rd.direct x with
    | none => exact .inr ⟨x, .inl ⟨rfl, hx⟩⟩
    | some v => exact .inl ⟨[v], by simp [operandValues?, Operand.value?, hx]⟩
  | _ => exact .inl ⟨_, rfl⟩

/-- The settled operands of a command have texts, if the values of names have decimal forms. -/
theorem all_hasText_settled {size : Int} {ops : List Operand} (h : Admitted size ops) {rd : Reading}
    (hd : ∀ x v, ops = [.direct x] → rd.direct x = some v → Text.hasDecimal v = true)
    (hr : ∀ x v, ops = [.relative x] → rd.relative x = some v → Text.hasDecimal v = true) :
    (ops.map (·.settled rd)).all Operand.hasText = true := by
  have hone : ∀ op : Operand, op.hasText = true →
      (∀ v, op.value? rd = some v → Text.hasDecimal v = true) →
      (op.settled rd).hasText = true := by
    intro op hop hv
    unfold Operand.settled
    cases h : op.value? rd with
    | none => exact hop
    | some v => exact hv v h
  have hstring : ∀ op : Operand, op.isString = true →
      (∀ v, op.stringValue = .ok v → Text.hasDecimal v = true) →
      (op.settled rd).hasText = true := by
    intro op hop hv
    refine hone op (by cases op <;> first | rfl | cases hop) fun w hw => hv w ?_
    rw [Operand.value?_of_isString rd hop] at hw
    cases h : op.stringValue with
    | error x => simp [h, Except.toOption] at hw
    | ok v => simpa [h, Except.toOption] using hw
  cases h with
  | nothing => rfl
  | byte v h0 h1 =>
    have hv : Text.hasDecimal v = true := hasDecimal_of_natAbs_lt (by omega)
    simpa using hone (.number v) hv (fun w hw => by cases hw; exact hv)
  | registers i j =>
    have hi : ∀ i : Int, ((Operand.register i).settled rd).hasText = true := fun i =>
      hone (.register i) rfl fun w hw => by cases hw; exact hasDecimal_of_natAbs_lt (by omega)
    simp [hi]
  | character op hop hle => simpa using hstring op hop fun v hv => hasDecimal_of_stringValue hle hv
  | distance x => simpa using hone (.relative x) rfl fun w hw => hr x w rfl hw
  | address x => simpa using hone (.direct x) rfl fun w hw => hd x w rfl hw
  | number v hm =>
    simpa using hone (.number v) hm.hasDecimal (fun w hw => by cases hw; exact hm.hasDecimal)
  | text op v hop hv hm =>
    refine List.all_eq_true.2 fun o ho => ?_
    rw [List.map_singleton, List.mem_singleton] at ho
    subst ho
    refine hstring op hop fun w hw => ?_
    obtain rfl : v = w := by simpa [hv] using hw
    exact hm.hasDecimal

def OnePass.storageDraft (a size : Int) : Option String → OnePass.Draft
  | some ds => .data a size ds
  | none => .space a size

namespace OnePass.Draft

theorem ofAllotment_eq {kind : Storage} {a : Int} {ops : List Operand} {al : Allotment}
    (h : kind.allot a ops = .ok al) (counter : Int) :
    ofAllotment al counter = storageDraft counter (kind.extent ops) (kind.digits? ops) := by
  obtain ⟨hsize, hdigits⟩ := Storage.allot_eq h
  rw [← hsize, ← hdigits]
  unfold ofAllotment storageDraft
  cases al.digits <;> rfl

variable {scope : Scope} {rd : Reading} {lacking : Fault → Prop} {forgive : Fault → Bool}
  {size : Int} {ops : List Operand}

theorem settle_eq (hk : scope.Knows rd lacking) (hf : ∀ x, lacking x → forgive x = true)
    {op : Operand} (hl : op.Legible) :
    settle forgive scope op = .ok (op.settled rd) := by
  unfold settle Operand.settled
  cases h : op.value? rd with
  | none =>
    obtain ⟨x, hx, hlx⟩ := Operand.value_of_value?_eq_none hk h
    simp [hx, hf x (hlx hl)]
  | some v => simp [Operand.value_of_value? hk h]

theorem settleAll_eq (hk : scope.Knows rd lacking) (hf : ∀ x, lacking x → forgive x = true)
    (hl : ∀ op ∈ ops, op.Legible) :
    settleAll forgive scope ops = .ok (ops.map (·.settled rd)) := by
  induction ops with
  | nil => rfl
  | cons op ops ih =>
    rw [settleAll, settle_eq hk hf (hl op List.mem_cons_self)]
    simp [ih fun o ho => hl o (List.mem_cons_of_mem _ ho)]

theorem eq_of_settleAll (hk : scope.Knows rd lacking) {vs : List Operand}
    (h : settleAll forgive scope ops = .ok vs) :
    vs = ops.map (·.settled rd) := by
  have hone : ∀ op v, settle forgive scope op = .ok v → v = op.settled rd := by
    intro op v hop
    unfold settle at hop
    unfold Operand.settled
    cases hval : op.value? rd with
    | none =>
      obtain ⟨x, hx, -⟩ := Operand.value_of_value?_eq_none hk hval
      simp only [hx] at hop
      split at hop <;> cases hop
      rfl
    | some w =>
      rw [Operand.value_of_value? hk hval] at hop
      cases hop
      rfl
  induction ops generalizing vs with
  | nil => cases h; rfl
  | cons op ops ih =>
    rw [settleAll] at h
    cases hop : settle forgive scope op with
    | error x => simp [hop] at h
    | ok v =>
      simp only [hop, map_eq_ok_iff] at h
      obtain ⟨ws, hws, rfl⟩ := h
      rw [hone op v hop, ih hws, List.map_cons]

/-- In the scope of a draft no name is known. -/
theorem bareScope_knows {d : Dialect} (hd : d.strategy = .onePass) (next : Int) :
    (bareScope d next).Knows ⟨fun _ => none, fun _ => none⟩ Fault.IsUndefinedName := by
  obtain ⟨layout, strategy⟩ := d
  obtain rfl : strategy = .onePass := hd
  refine ⟨nofun, nofun, fun x _ => ?_, fun x _ => ?_⟩
  · cases layout <;> exact ⟨_, rfl, _, _, _, rfl⟩
  · cases layout <;> exact ⟨_, rfl, _, _, _, rfl⟩

/-- The field of settled operands is that of their values, or empty while a name is open. -/
theorem inOnePass_settled {d : Dialect} (hd : d.strategy = .onePass)
    (hlayout : d.layout ≠ .absolute) (h : Admitted size ops) (hl : ∀ op ∈ ops, op.Legible)
    (rd : Reading) (next : Int) :
    Field.inOnePass d (bareScope d next) size (ops.map (·.settled rd)) =
      .ok (some ((operandDigits? rd size ops).getD "")) := by
  have hin : ∀ os, Field.inOnePass d (bareScope d next) size os =
      Field.pending (FieldWidth.ofResolved? size os) (bareScope d next) os := by
    intro os
    obtain ⟨layout, strategy⟩ := d
    cases layout <;> first | rfl | exact absurd rfl hlayout
  have hk := bareScope_knows hd next
  rw [hin]
  rcases values_or_open h hl rd with ⟨vs, hvs⟩ | ⟨x, ⟨rfl, hx⟩ | ⟨rfl, hx⟩⟩
  · rw [map_settled_of_values hvs, FieldWidth.ofResolved?_admitted h (operandValues?_length hvs)]
    simp [Field.pending, Operand.values_of_operandValues? hk (operandValues?_number _ vs),
      Field.lenient_number, operandDigits?, hvs]
  · obtain ⟨y, hy, d', use, name, rfl⟩ := hk.direct_none x rfl
    simp [Field.pending, Operand.settled, Operand.value?, hx, Operand.values, Operand.value, hy,
      operandDigits?, operandValues?]
  · obtain ⟨y, hy, d', use, name, rfl⟩ := hk.relative_none x rfl
    simp [Field.pending, Operand.settled, Operand.value?, hx, Operand.values, Operand.value, hy,
      operandDigits?, operandValues?]

/-- The draft of a command gives the record of its values. -/
theorem record_settled {d : Dialect} (hd : d.strategy = .onePass) (hlayout : d.layout ≠ .absolute)
    (h : Admitted size ops) (hl : ∀ op ∈ ops, op.Legible) (rd : Reading) (a byte : Int) :
    record d (.code a size (some byte) (ops.map (·.settled rd))) =
      .ok (.code a size byte ((operandDigits? rd size ops).getD "")) := by
  simp [record, inOnePass_settled hd hlayout h hl, Field.shown]

theorem records_eq_ok_iff {d : Dialect} {rs : List Draft} {os : List ObjectRecord} :
    records d rs = .ok os ↔ List.Forall₂ (fun r o => r.record d = .ok o) rs os := by
  induction rs generalizing os with
  | nil => simp [records, eq_comm]
  | cons r rs ih =>
    rw [records, List.forall₂_cons_left_iff]
    cases hr : r.record d with
    | error x => simp
    | ok o =>
      simp only [map_eq_ok_iff, ih, Except.ok.injEq, exists_and_left, exists_eq_left']
      exact ⟨fun ⟨os, h, e⟩ => ⟨os, h, e.symm⟩, fun ⟨os, h, e⟩ => ⟨os, h, e.symm⟩⟩

end OnePass.Draft

/-- A field of readable operands can be looked at in any width, whether or not its names are
open. -/
theorem Field.pending_isOk {scope : Scope} {rd : Reading} {ops : List Operand}
    (hk : scope.Knows rd Fault.IsUndefinedName) (hl : ∀ op ∈ ops, op.Legible)
    (w : Option FieldWidth) : ∃ f, pending w scope ops = .ok f := by
  unfold pending
  cases hvs : operandValues? rd ops with
  | none =>
    obtain ⟨x, hx, hlx⟩ := Operand.values_of_operandValues?_eq_none hk hvs
    obtain ⟨d, use, name, rfl⟩ := hlx hl
    exact ⟨_, by rw [hx]⟩
  | some vs =>
    rw [Operand.values_of_operandValues? hk hvs]
    cases w with
    | none => exact ⟨_, rfl⟩
    | some w => exact ⟨_, lenient_number w vs⟩

end Assembler
