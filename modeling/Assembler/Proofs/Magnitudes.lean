import Mathlib.Algebra.Order.BigOperators.Group.List
import Assembler.Proofs.Drafts

/-! # How large numbers get

A number is told in decimal only if it has at most 4300 digits.  The numbers a program leads to are
its constants, the space its lines take, and sums of these; `bulk` adds them all up, so that below
the bound `vast` every number that has to be told has a decimal form. -/

namespace Assembler
set_option autoImplicit false

variable {layout : Layout} {table : OpTable} {l : Line} {ls : List Line} {op : Operand} {B : Nat}

/-! ## The bound -/

/-- The least number with as many digits as decimal forms may have. -/
def vast : Nat := 10 ^ (Text.decimalLimit - 1)

theorem le_vast : 100000 ≤ vast :=
  calc 100000 = 10 ^ 5 := rfl
    _ ≤ 10 ^ (Text.decimalLimit - 1) := Nat.pow_le_pow_right (by decide) (by decide)

theorem fitsDigits_of_lt {k c n : Nat} (hk : 0 < k) (hc : c = 10 ^ (k - 1)) (h : n < 10 * c) :
    Text.fitsDigits k n = true := by
  obtain ⟨k, rfl⟩ := Nat.exists_eq_succ_of_ne_zero (Nat.ne_of_gt hk)
  rw [Text.fitsDigits_iff]
  subst hc
  exact h.trans_eq Nat.pow_succ'.symm

theorem hasDecimal_of_lt_vast {v : Int} (h : v.natAbs < 10 * vast) : Text.hasDecimal v = true :=
  fitsDigits_of_lt (by decide) (by rw [vast]) h

/-! ## Constants, lines and programs -/

/-- The value of an operand that is a constant, and zero for names. -/
def Operand.constant (op : Operand) : Int := (op.value? ⟨fun _ => none, fun _ => none⟩).getD 0

/-- The space a line takes and the constants in it. -/
def Line.weight (layout : Layout) (table : OpTable) (l : Line) : Nat :=
  (l.extent layout table).natAbs + (l.operands.map fun op => op.constant.natAbs).sum

def bulk (layout : Layout) (table : OpTable) (ls : List Line) : Nat :=
  (ls.map (·.weight layout table)).sum

theorem natAbs_extent_le (layout : Layout) (table : OpTable) (l : Line) :
    (l.extent layout table).natAbs ≤ l.weight layout table :=
  Nat.le_add_right _ _

theorem natAbs_constant_le (layout : Layout) (table : OpTable) (h : op ∈ l.operands) :
    op.constant.natAbs ≤ l.weight layout table := by
  have hsum :=
    List.single_le_sum (by simp) _
      (List.mem_map_of_mem (f := fun op : Operand => op.constant.natAbs) h)
  exact hsum.trans (Nat.le_add_left _ _)

theorem bulk_append (ls ms : List Line) :
    bulk layout table (ls ++ ms) = bulk layout table ls + bulk layout table ms := by
  simp [bulk]

theorem bulk_concat (ls : List Line) (l : Line) :
    bulk layout table (ls ++ [l]) = bulk layout table ls + l.weight layout table := by
  simp [bulk]

theorem hasText_of_constant (h : op.constant.natAbs < 10 * vast) : op.hasText = true := by
  cases op with
  | number v => exact hasDecimal_of_lt_vast h
  | _ => rfl

theorem constant_of_stringValue {v : Int} (hs : op.isString = true) (hv : op.stringValue = .ok v) :
    op.constant = v := by
  rw [Operand.constant, Operand.value?_of_isString _ hs, hv]
  rfl

theorem hasDecimal_constant_of_string (hs : op.isString = true)
    (hall : ∀ v, op.stringValue = .ok v → Text.hasDecimal v = true) :
    Text.hasDecimal op.constant = true := by
  cases hv : op.stringValue with
  | ok v =>
    rw [constant_of_stringValue hs hv]
    exact hall v hv
  | error x =>
    rw [Operand.constant, Operand.value?_of_isString _ hs, hv]
    rfl

theorem hasDecimal_constant_register (i : Int) :
    Text.hasDecimal (Operand.register i).constant = true := by
  refine hasDecimal_of_natAbs_lt ?_
  change (i % 16).natAbs < _
  omega

/-! ## Problems have wordings -/

theorem hasText_rangeProblems (a : Int) (role : AddressRole) :
    ∀ p ∈ rangeProblems a role, p.hasText = true := by
  unfold rangeProblems
  split <;> simp [Problem.hasText]

/-- The problems of storage can be told. -/
theorem hasText_of_allot {kind : Storage} {a : Int} {ops : List Operand} {al : Allotment}
    (h : kind.allot a ops = .ok al)
    (hnumber : kind = .words ∨ kind = .bytes → ∀ v, .number v ∈ ops → Text.hasDecimal v = true) :
    ∀ p ∈ al.problems, p.hasText = true := by
  unfold Storage.allot at h
  split at h <;> cases h
  all_goals simp only [reservation]
  · split
    · simp
    · simp [Problem.hasText, hnumber]
  · simp
  · simp
  · rw [List.forall_mem_append]
    refine ⟨?_, hasText_rangeProblems _ _⟩
    split <;> simp [Problem.hasText]
  · split
    · simp
    · simp [Problem.hasText, hnumber]
  · simp
  · simp
  · rw [List.forall_mem_append]
    refine ⟨?_, hasText_rangeProblems _ _⟩
    split <;> simp [Problem.hasText]

/-- The problems of the operands of a command can be told. -/
theorem hasText_of_formProblems {m : String} {size : Int} {ops : List Operand} {ps : List Problem}
    (h : formProblems layout m size ops = .ok ps) (hsize : Text.hasDecimal size = true)
    (hops : ∀ op ∈ ops, Text.hasDecimal op.constant = true) : ∀ p ∈ ps, p.hasText = true := by
  have hnumber : ∀ v, .number v ∈ ops → Text.hasDecimal v = true := fun v hv => hops _ hv
  have hstring : ∀ op v, op ∈ ops → op.isString = true → op.stringValue = .ok v →
      Text.hasDecimal v = true := by
    intro op v hop hs hv
    rw [← constant_of_stringValue hs hv]
    exact hops op hop
  have hbads : ∀ p ∈ [Problem.badOperands m size], p.hasText = true :=
    List.forall_mem_singleton.2 hsize
  unfold formProblems at h
  dsimp only at h
  split at h
  · split at h <;> cases h
    · simp
    · exact hbads
  split at h
  · split at h
    · next v =>
      cases h
      split
      · simp
      · exact List.forall_mem_singleton.2 (hnumber v (by simp))
    · cases h; simp
    · next op _ =>
      split at h
      · next hs =>
        split at h
        · obtain ⟨v, hv, rfl⟩ := (map_eq_ok_iff _ _ _).1 h
          exact List.forall_mem_singleton.2 (hstring op v (by simp) hs hv)
        · cases h; simp
      · cases h; exact hbads
    · cases h; exact hbads
  split at h
  · split at h <;> cases h
    · simp
    · simp
    · exact hbads
  split at h
  · split at h
    · cases h; simp
    · cases h; exact hasText_rangeProblems _ _
    · split at h
      · obtain ⟨v, -, rfl⟩ := (map_eq_ok_iff _ _ _).1 h
        exact hasText_rangeProblems _ _
      · cases h; exact hbads
    · cases h; exact hbads
  · cases h; simp

/-! ## Names replaced by their values -/

/-- A settled operand is a constant, an address, or a displacement between addresses. -/
theorem natAbs_constant_settled {ρ : String → Option Int} {next : Int}
    (hρ : ∀ x a, ρ x = some a → a.natAbs ≤ B) (hnext : next.natAbs ≤ B + 4)
    (hop : op.constant.natAbs ≤ 2 * B + 0x10000) :
    (op.settled (.ofAddresses ρ next)).constant.natAbs ≤ 2 * B + 0x10000 := by
  have hstring : ∀ o : Operand, o.isString = true → o.constant.natAbs ≤ 2 * B + 0x10000 →
      (o.settled (.ofAddresses ρ next)).constant.natAbs ≤ 2 * B + 0x10000 := by
    intro o hs ho
    unfold Operand.settled
    rw [Operand.value?_of_isString _ hs]
    cases hv : o.stringValue with
    | error x => exact ho
    | ok v =>
      rw [constant_of_stringValue hs hv] at ho
      exact ho
  cases op with
  | direct x =>
    cases hx : ρ x with
    | none => simpa [Operand.settled, Operand.value?, Reading.ofAddresses, hx] using hop
    | some a =>
      have ha := hρ x a hx
      have hconstant : ((Operand.direct x).settled (.ofAddresses ρ next)).constant = a := by
        simp [Operand.settled, Operand.value?, Reading.ofAddresses, hx, Operand.constant]
      omega
  | relative x =>
    cases hx : ρ x with
    | none => simpa [Operand.settled, Operand.value?, Reading.ofAddresses, hx] using hop
    | some a =>
      have ha := hρ x a hx
      have hconstant :
          ((Operand.relative x).settled (.ofAddresses ρ next)).constant = displacement a next := by
        simp [Operand.settled, Operand.value?, Reading.ofAddresses, hx, Operand.constant]
      rw [hconstant, displacement]
      split <;> omega
  | number v => exact hop
  | register i =>
    have hconstant : ((Operand.register i).settled (.ofAddresses ρ next)).constant = i % 16 := rfl
    omega
  | chars t => exact hstring _ rfl hop
  | hex t => exact hstring _ rfl hop

end Assembler
