import Mathlib.Data.Nat.Digits.Defs
import Assembler.Scope

/-! # What hexadecimal literals stand for

Digits alone stand for the number they write (`hexLiteral?_digits`).  Whatever a literal looks like,
its number has no more digits than the literal has characters, and the sign of a negative one is
another character (`hexLiteral?_bounds`). -/

namespace Assembler.Text
set_option autoImplicit false

variable {c : Char} {cs ds : List Char}

/-! ## Digits and their values -/

theorem le_iff_toNat_le (a b : Char) : a ≤ b ↔ a.toNat ≤ b.toNat := by
  rw [Char.le_def, UInt32.le_iff_toNat_le]
  rfl

theorem isHexadecimal_iff : isHexadecimal c = true ↔
    (48 ≤ c.toNat ∧ c.toNat ≤ 57) ∨ (65 ≤ c.toNat ∧ c.toNat ≤ 70) ∨
    (97 ≤ c.toNat ∧ c.toNat ≤ 102) := by
  simp only [isHexadecimal, isDecimal, Bool.or_eq_true, Bool.and_eq_true, decide_eq_true_eq,
    le_iff_toNat_le, or_assoc, Char.reduceToNat]

theorem digitValue_lt (h : isHexadecimal c = true) : digitValue c < 16 := by
  rw [isHexadecimal_iff] at h
  simp only [digitValue, isDecimal, Bool.and_eq_true, decide_eq_true_eq, le_iff_toNat_le,
    Char.reduceToNat]
  split
  · omega
  · split <;> omega

theorem valueOf_lt (h : ∀ c ∈ ds, isHexadecimal c = true) : valueOf 16 ds < 16 ^ ds.length := by
  have hfold :
      ∀ n : Nat, ds.foldl (fun n c => n * 16 + digitValue c) n < (n + 1) * 16 ^ ds.length := by
    induction ds with
    | nil => intro n; simp
    | cons c ds ih =>
      intro n
      have hc := digitValue_lt (h c List.mem_cons_self)
      have hih := ih (fun c hc => h c (List.mem_cons_of_mem _ hc)) (n * 16 + digitValue c)
      rw [List.foldl_cons, List.length_cons, Nat.pow_succ]
      refine hih.trans_le ?_
      rw [Nat.mul_comm (16 ^ ds.length), ← Nat.mul_assoc]
      exact Nat.mul_le_mul_right _ (by omega)
  simpa [valueOf] using hfold 0

/-! ## Digits alone -/

theorem plainForm_digit (h : isHexadecimal c = true) : plainForm c = c := by
  rw [isHexadecimal_iff] at h
  exact if_pos (by omega)

theorem isPlainBlank_digit (h : isHexadecimal c = true) : isPlainBlank c = false := by
  rw [isHexadecimal_iff] at h
  have hspace : c ≠ ' ' := by
    rintro rfl
    revert h
    decide
  simp [isPlainBlank, hspace]
  omega

theorem dropWhile_digits (h : ∀ c ∈ ds, isHexadecimal c = true) :
    ds.dropWhile isPlainBlank = ds := by
  cases ds with
  | nil => rfl
  | cons d ds =>
    exact List.dropWhile_cons_of_neg (by simp [isPlainBlank_digit (h d List.mem_cons_self)])

theorem bareForm_digits (h : ∀ c ∈ ds, isHexadecimal c = true) : bareForm ds = ds := by
  have hplain : ds.map plainForm = ds := by
    refine (List.map_congr_left fun c hc => plainForm_digit (h c hc)).trans ?_
    exact List.map_id _
  have hreverse : ∀ c ∈ ds.reverse, isHexadecimal c = true :=
    fun c hc => h c (List.mem_reverse.1 hc)
  rw [bareForm, hplain, dropWhile_digits h, dropWhile_digits hreverse, List.reverse_reverse]

theorem unmark_digits (h : ∀ c ∈ ds, isHexadecimal c = true) : unmark ds = ds := by
  have hx : ∀ c, c = 'x' ∨ c = 'X' → c ∉ ds := by
    rintro c (rfl | rfl) hc
    · exact absurd (h _ hc) (by decide)
    · exact absurd (h _ hc) (by decide)
  unfold unmark
  split <;> simp at hx ⊢

theorem ungroup_digits (hne : ds ≠ []) (h : ∀ c ∈ ds, isHexadecimal c = true) :
    ungroup ds = some ds := by
  fun_induction ungroup ds with
  | case1 => exact absurd rfl hne
  | case2 c hc => rfl
  | case3 c hc => exact absurd (h c List.mem_cons_self) hc
  | case4 c cs hc => exact absurd (h '_' (by simp)) (by decide)
  | case5 c cs hc => exact absurd (h c List.mem_cons_self) hc
  | case6 c cs hcs _ hc ih =>
    rw [ih (by simpa using hcs) fun d hd => h d (List.mem_cons_of_mem _ hd)]
    rfl
  | case7 c cs _ _ hc => exact absurd (h c List.mem_cons_self) hc

theorem hexLiteral?_digits (hne : ds ≠ []) (h : ∀ c ∈ ds, isHexadecimal c = true) :
    hexLiteral? ds = some (valueOf 16 ds : Int) := by
  have hsign : ∀ c, c = '-' ∨ c = '+' → c ∉ ds := by
    rintro c (rfl | rfl) hc
    · exact absurd (h _ hc) (by decide)
    · exact absurd (h _ hc) (by decide)
  rw [hexLiteral?, bareForm_digits h]
  split
  · simp at hsign
  · simp at hsign
  · rw [unsignedLiteral?, unmark_digits h, ungroup_digits hne h]
    rfl

/-! ## How large literals are -/

theorem length_bareForm_le (cs : List Char) : (bareForm cs).length ≤ cs.length := by
  rw [bareForm, List.length_reverse]
  refine (List.dropWhile_sublist _).length_le.trans ?_
  rw [List.length_reverse]
  exact (List.dropWhile_sublist _).length_le.trans_eq (List.length_map _)

theorem length_unmark_le (cs : List Char) : (unmark cs).length ≤ cs.length := by
  unfold unmark
  split
  · exact Nat.le_add_right _ 3
  · exact Nat.le_add_right _ 3
  · exact Nat.le_add_right _ 2
  · exact Nat.le_add_right _ 2
  · exact Nat.le_refl _

theorem ungroup_eq_some (h : ungroup cs = some ds) :
    (∀ c ∈ ds, isHexadecimal c = true) ∧ ds.length ≤ cs.length := by
  fun_induction ungroup cs generalizing ds with
  | case1 => cases h
  | case2 c hc =>
    cases h
    simpa using hc
  | case3 c hc => cases h
  | case4 c cs hc ih =>
    obtain ⟨ds, hds, rfl⟩ := Option.map_eq_some_iff.1 h
    obtain ⟨hhex, hlength⟩ := ih hds
    exact ⟨List.forall_mem_cons.2 ⟨hc, hhex⟩, by simp only [List.length_cons]; omega⟩
  | case5 c cs hc => cases h
  | case6 c cs _ _ hc ih =>
    obtain ⟨ds, hds, rfl⟩ := Option.map_eq_some_iff.1 h
    obtain ⟨hhex, hlength⟩ := ih hds
    exact ⟨List.forall_mem_cons.2 ⟨hc, hhex⟩, by simp only [List.length_cons]; omega⟩
  | case7 c cs _ _ hc => cases h

theorem unsignedLiteral?_lt {n : Nat} (h : unsignedLiteral? cs = some n) : n < 16 ^ cs.length := by
  obtain ⟨ds, hds, rfl⟩ := Option.map_eq_some_iff.1 h
  obtain ⟨hhex, hlength⟩ := ungroup_eq_some hds
  exact (valueOf_lt hhex).trans_le
    (Nat.pow_le_pow_right (by decide) (hlength.trans (length_unmark_le cs)))

theorem hexLiteral?_bounds {v : Int} (h : hexLiteral? cs = some v) :
    -(16 ^ (cs.length - 1) : Nat) < v ∧ v < (16 ^ cs.length : Nat) := by
  have hlength := length_bareForm_le cs
  have hpos : ∀ k, 0 < 16 ^ k := fun k => Nat.pow_pos (by decide)
  have hunsigned : ∀ {ds : List Char} {n k : Nat}, unsignedLiteral? ds = some n → ds.length ≤ k →
      n < 16 ^ k :=
    fun hn hk => (unsignedLiteral?_lt hn).trans_le (Nat.pow_le_pow_right (by decide) hk)
  have hlow := hpos (cs.length - 1)
  have hhigh := hpos cs.length
  unfold hexLiteral? at h
  split at h
  · next ds hbare =>
    obtain ⟨n, hn, rfl⟩ := Option.map_eq_some_iff.1 h
    rw [hbare, List.length_cons] at hlength
    have hlt := hunsigned hn (k := cs.length - 1) (by omega)
    omega
  · next ds hbare =>
    obtain ⟨n, hn, rfl⟩ := Option.map_eq_some_iff.1 h
    rw [hbare, List.length_cons] at hlength
    have hlt := hunsigned hn (k := cs.length) (by omega)
    omega
  · obtain ⟨n, hn, rfl⟩ := Option.map_eq_some_iff.1 h
    have hlt := hunsigned hn hlength
    omega

end Assembler.Text

namespace Assembler
set_option autoImplicit false

variable {cs ds : List Char} {v : Int}

theorem hexValue_eq_ok_iff : hexValue cs = .ok v ↔ Text.hexLiteral? cs = some v := by
  unfold hexValue
  cases Text.hexLiteral? cs <;> simp

/-- Digits alone have a value if there are any. -/
theorem hexValue_digits_iff (h : ∀ c ∈ ds, Text.isHexadecimal c = true) :
    hexValue ds = .ok v ↔ ds ≠ [] ∧ v = Text.valueOf 16 ds := by
  by_cases hne : ds = []
  · subst hne
    exact iff_of_false nofun (by simp)
  · rw [hexValue_eq_ok_iff, Text.hexLiteral?_digits hne h, Option.some.injEq, and_iff_right hne]
    exact eq_comm

theorem natAbs_lt_of_hexValue (h : hexValue cs = .ok v) : v.natAbs < 16 ^ cs.length := by
  obtain ⟨hlow, hhigh⟩ := Text.hexLiteral?_bounds (hexValue_eq_ok_iff.1 h)
  have hle : 16 ^ (cs.length - 1) ≤ 16 ^ cs.length :=
    Nat.pow_le_pow_right (by decide) (Nat.sub_le _ _)
  omega

end Assembler
