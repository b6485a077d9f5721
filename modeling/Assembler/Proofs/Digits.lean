import Mathlib.Data.Nat.Digits.Defs
import Assembler.Text.Radix

/-! # How many digits numbers have, and what digits are worth

The number of places of a hexadecimal number, and reading back what was written in a base up to
sixteen. -/

namespace Assembler.Text
set_option autoImplicit false

/-! ## Places -/

theorem length_padLeft (width : Nat) (cs : List Char) :
    (padLeft width cs).length = max width cs.length := by
  rw [padLeft, List.length_append, List.length_replicate]
  omega

theorem length_digits_le_iff (c : LetterCase) (n : Nat) {k : Nat} (hk : 0 < k) :
    (digits c 16 n).length ≤ k ↔ n < 16 ^ k := by
  have hlength : (digits c 16 n).length = (Nat.toDigits 16 n).length := by
    cases c <;> simp [digits]
  rw [hlength]
  exact Nat.length_toDigits_le_iff (by decide) hk

theorem length_hex_eq_iff {c : LetterCase} {width : Nat} {v : Int} (hv : 0 ≤ v) (hw : 0 < width) :
    (hex c width v).length = width ↔ v < 16 ^ width := by
  have hn : v.natAbs < 16 ^ width ↔ v < 16 ^ width := by
    zify
    rw [abs_of_nonneg hv]
  have hle := length_digits_le_iff c v.natAbs hw
  rw [hex, formatInt, if_neg (by omega), String.length_ofList, length_padLeft, ← hn, ← hle]
  omega

theorem le_length_hex (c : LetterCase) (width : Nat) (v : Int) :
    width ≤ (hex c width v).length := by
  rw [hex, formatInt, String.length_ofList]
  split
  · rw [List.length_cons, length_padLeft]
    omega
  · rw [length_padLeft]
    omega

/-- The sign of a negative number takes one place. -/
theorem length_hex_of_neg (c : LetterCase) {width : Nat} {v : Int} (hv : v < 0) (hw : 1 < width)
    (hlt : v.natAbs < 16 ^ (width - 1)) : (hex c width v).length = width := by
  have hle := (length_digits_le_iff c v.natAbs (by omega)).2 hlt
  rw [hex, formatInt, if_pos hv, String.length_ofList, List.length_cons, length_padLeft]
  omega

theorem length_hex {c : LetterCase} {width : Nat} {v : Int} (hv : 0 ≤ v) (hw : 0 < width)
    (hlt : v < 16 ^ width) :
    (hex c width v).length = width := (length_hex_eq_iff hv hw).2 hlt

/-! ## Single digits -/

def digit (c : LetterCase) (m : Nat) : Char :=
  match c with
  | .lower => Nat.digitChar m
  | .upper => (Nat.digitChar m).toUpper

theorem digits_of_lt (c : LetterCase) {base n : Nat} (h : n < base) :
    digits c base n = [digit c n] := by
  cases c <;> simp [digits, digit, Nat.toDigits_of_lt_base h]

theorem digits_of_le (c : LetterCase) {base n : Nat} (hbase : 1 < base) (h : base ≤ n) :
    digits c base n = digits c base (n / base) ++ [digit c (n % base)] := by
  cases c <;> simp [digits, digit, Nat.toDigits_of_base_le hbase h]

theorem digits_ne_nil (c : LetterCase) (base n : Nat) : digits c base n ≠ [] := by
  cases c <;> simp [digits, Nat.toDigits_ne_nil]

/-- A number is written with digits of its base. -/
theorem exists_of_mem_digits (c : LetterCase) {base : Nat} (hbase : 1 < base) (n : Nat) :
    ∀ d ∈ digits c base n, ∃ m < base, d = digit c m := by
  induction n using Nat.strongRecOn with
  | ind n ih =>
    intro d hd
    by_cases hn : n < base
    · rw [digits_of_lt c hn, List.mem_singleton] at hd
      exact ⟨n, hn, hd⟩
    · have hle : base ≤ n := Nat.not_lt.1 hn
      rw [digits_of_le c hbase hle, List.mem_append, List.mem_singleton] at hd
      cases hd with
      | inl hd => exact ih (n / base) (Nat.div_lt_self (by omega) hbase) d hd
      | inr hd => exact ⟨n % base, Nat.mod_lt _ (by omega), hd⟩

theorem isHexadecimal_digit (c : LetterCase) : ∀ m < 16, isHexadecimal (digit c m) = true := by
  cases c <;> decide

theorem digitValue_digit (c : LetterCase) : ∀ m < 16, digitValue (digit c m) = m := by
  cases c <;> decide

theorem isHexadecimal_digits (c : LetterCase) (n : Nat) :
    ∀ d ∈ digits c 16 n, isHexadecimal d = true := by
  intro d hd
  obtain ⟨m, hm, rfl⟩ := exists_of_mem_digits c (by decide) n d hd
  exact isHexadecimal_digit c m hm

theorem isHexadecimal_padLeft {width : Nat} {cs : List Char}
    (h : ∀ d ∈ cs, isHexadecimal d = true) :
    ∀ d ∈ padLeft width cs, isHexadecimal d = true := by
  intro d hd
  cases List.mem_append.1 hd with
  | inl hzero =>
    rw [List.eq_of_mem_replicate hzero]
    decide
  | inr hd => exact h d hd

theorem isHexadecimal_hex (c : LetterCase) (width : Nat) {v : Int} (hv : 0 ≤ v) :
    ∀ d ∈ (hex c width v).toList, isHexadecimal d = true := by
  rw [hex, formatInt, if_neg (by omega), String.toList_ofList]
  exact isHexadecimal_padLeft (isHexadecimal_digits c _)

/-! ## Reading back -/

theorem valueOf_concat (base : Nat) (cs : List Char) (d : Char) :
    valueOf base (cs ++ [d]) = valueOf base cs * base + digitValue d := by
  rw [valueOf, List.foldl_append]
  rfl

theorem valueOf_padLeft (base width : Nat) (cs : List Char) :
    valueOf base (padLeft width cs) = valueOf base cs := by
  have hzeros : ∀ k, (List.replicate k '0').foldl (fun n c => n * base + digitValue c) 0 = 0 := by
    intro k
    induction k with
    | zero => rfl
    | succ k ih =>
      rw [List.replicate_succ', List.foldl_append, ih]
      simp [show digitValue '0' = 0 from rfl]
  rw [valueOf, padLeft, List.foldl_append, hzeros]
  rfl

theorem valueOf_digits (c : LetterCase) {base : Nat} (hbase : 1 < base) (hle : base ≤ 16)
    (n : Nat) :
    valueOf base (digits c base n) = n := by
  induction n using Nat.strongRecOn with
  | ind n ih =>
    by_cases hn : n < base
    · rw [digits_of_lt c hn, ← List.nil_append [digit c n], valueOf_concat,
        digitValue_digit c n (by omega)]
      simp [valueOf]
    · have hmod : n % base < base := Nat.mod_lt _ (by omega)
      rw [digits_of_le c hbase (Nat.not_lt.1 hn), valueOf_concat,
        ih (n / base) (Nat.div_lt_self (by omega) hbase), digitValue_digit c _ (by omega),
        Nat.mul_comm, Nat.div_add_mod]

/-- What is written without a sign is read back, however wide it is. -/
theorem valueOf_hex (c : LetterCase) (width : Nat) {v : Int} (hv : 0 ≤ v) :
    (valueOf 16 (hex c width v).toList : Int) = v := by
  rw [hex, formatInt, if_neg (by omega), String.toList_ofList, valueOf_padLeft,
    valueOf_digits c (by decide) (by decide)]
  omega

end Assembler.Text
