import Mathlib.Data.List.Infix
import Mathlib.Data.Nat.Find
import Mathlib.Data.Option.Basic
import Assembler.Proofs.Digits
import Assembler.Proofs.ReadTexts

/-! # Number literals

The grammar of numbers and their reader.  It asks for one base after another and does not look at
what stands behind the digits, so it takes the literal that a text starts with: the longest
beginning that is a number (`Literal`).  It misses if there is none, and it stops at a decimal one
with too many digits. -/

namespace Assembler.Grammar
open Reader
set_option autoImplicit false

variable {d : Dialect} {cs lit ds text rest body : List Char} {n : Nat} {v : Int}
  {isDigit : Char → Bool}

/-! ## The grammar of numbers -/

/-- A run of digits of some kind, at least one. -/
def IsRun (isDigit : Char → Bool) (ds : List Char) : Prop := ds ≠ [] ∧ ∀ c ∈ ds, isDigit c = true

def signText : Option Unit → List Char
  | some _ => ['-']
  | none => []

/-- The characters of a number without a sign, and its value. -/
inductive UnsignedText (d : Dialect) : List Char → Nat → Prop
  | hexadecimal {ds : List Char} :
      IsRun Text.isHexadecimal ds → UnsignedText d ('0' :: 'x' :: ds) (Text.valueOf 16 ds)
  | octal {ds : List Char} :
      IsRun Text.isOctal ds → UnsignedText d ('0' :: 'o' :: ds) (Text.valueOf 8 ds)
  | binary {ds : List Char} : d.hasRelative = true → IsRun Text.isBinary ds →
      UnsignedText d ('0' :: 'b' :: ds) (Text.valueOf 2 ds)
  | decimal {ds : List Char} : IsRun Text.isDecimal ds → UnsignedText d ds (Text.valueOf 10 ds)

/-- The characters of a number and its value. -/
inductive NumberText (d : Dialect) : List Char → Int → Prop
  | mk {cs : List Char} {n : Nat} (sign : Option Unit) : UnsignedText d cs n →
      NumberText d (signText sign ++ cs) (signed sign n)

/-! ## Characters -/

theorem char_le_iff (a b : Char) : a ≤ b ↔ a.toNat ≤ b.toNat := Iff.rfl

theorem isNameStart_iff (c : Char) : isNameStart c = true ↔
    (65 ≤ c.toNat ∧ c.toNat ≤ 90) ∨ (97 ≤ c.toNat ∧ c.toNat ≤ 122) ∨ c.toNat = 95 := by
  have hunderscore : c = '_' ↔ c.toNat = 95 := Char.toNat_inj.symm
  simp only [isNameStart, Bool.or_eq_true, Bool.and_eq_true, decide_eq_true_eq, char_le_iff,
    beq_iff_eq, hunderscore, or_assoc]
  rfl

theorem isDecimal_iff (c : Char) : Text.isDecimal c = true ↔ 48 ≤ c.toNat ∧ c.toNat ≤ 57 := by
  simp only [Text.isDecimal, Bool.and_eq_true, decide_eq_true_eq, char_le_iff]
  rfl

theorem isNameChar_iff (c : Char) : isNameChar c = true ↔ isNameStart c = true ∨
    Text.isDecimal c = true := by
  simp [isNameChar]

theorem isNameChar_of_isDecimal {c : Char} (h : Text.isDecimal c = true) : isNameChar c = true :=
  (isNameChar_iff c).2 (.inr h)

theorem isNameChar_of_isNameStart {c : Char} (h : isNameStart c = true) : isNameChar c = true :=
  (isNameChar_iff c).2 (.inl h)

theorem isNameChar_of_isHexadecimal {c : Char} (h : Text.isHexadecimal c = true) :
    isNameChar c = true := by
  rw [isNameChar_iff, isNameStart_iff]
  simp only [Text.isHexadecimal, Bool.or_eq_true, Bool.and_eq_true, decide_eq_true_eq, char_le_iff]
    at h
  obtain (h | ⟨hA, hF⟩) | ⟨ha, hf⟩ := h
  · exact .inr h
  · exact .inl (.inl ⟨hA, hF.trans (by decide)⟩)
  · exact .inl (.inr (.inl ⟨ha, hf.trans (by decide)⟩))

theorem isDecimal_of_isOctal {c : Char} (h : Text.isOctal c = true) : Text.isDecimal c = true := by
  simp only [Text.isOctal, Text.isDecimal, Bool.and_eq_true, decide_eq_true_eq, char_le_iff] at h ⊢
  exact ⟨h.1, h.2.trans (by decide)⟩

theorem isDecimal_of_isBinary {c : Char} (h : Text.isBinary c = true) :
    Text.isDecimal c = true := by
  simp only [Text.isBinary, Text.isDecimal, Bool.and_eq_true, decide_eq_true_eq, char_le_iff] at h ⊢
  exact ⟨h.1, h.2.trans (by decide)⟩

theorem isBlank_of_isNameChar {c : Char} (h : isNameChar c = true) : Text.isBlank c = false := by
  rw [isNameChar_iff, isNameStart_iff, isDecimal_iff] at h
  simp only [Text.isBlank, Bool.or_eq_false_iff, Bool.and_eq_false_iff, decide_eq_false_iff_not,
    beq_eq_false_iff_ne]
  omega

theorem not_isDecimal_of_isNameStart {c : Char} (h : isNameStart c = true) :
    Text.isDecimal c = false := by
  rw [isNameStart_iff] at h
  rw [← Bool.not_eq_true, isDecimal_iff]
  omega

/-- A character that is no part of a name differs from those that are. -/
theorem ne_of_isNameChar {c x : Char} (hc : isNameChar c = true) (hx : isNameChar x = false) :
    c ≠ x := by
  rintro rfl
  rw [hc] at hx
  cases hx

theorem not_isNameStart_of_isDecimal {c : Char} (h : Text.isDecimal c = true) :
    isNameStart c = false := by
  by_contra hstart
  rw [Bool.not_eq_false] at hstart
  rw [not_isDecimal_of_isNameStart hstart] at h
  cases h

/-! ## Readers of one base -/

theorem sign_finds : (optional (literal "-")).Finds fun text sign _ => text = signText sign := by
  refine Finds.mono (finds_literal "-").optional ?_
  rintro text sign rest (⟨rfl, rfl⟩ | ⟨⟨⟩, rfl, rfl⟩) <;> rfl

theorem sign_reads (sign : Option Unit) (h : ∀ c ∈ body.head?, c ≠ '-') :
    (optional (literal "-")).Reads (signText sign) sign body := by
  cases sign with
  | some u => exact Reads.optional (reads_literal "-" body)
  | none =>
    refine Misses.optional (misses_literal ?_)
    rintro ⟨t, rfl⟩
    exact h '-' rfl rfl

theorem markedNumber_finds (title mark : String) (base : Nat) (isDigit : Char → Bool)
    (what : String) :
    (markedNumber title mark base isDigit what).Finds fun text v _ => ∃ sign ds,
      text = signText sign ++ (mark.toList ++ ds) ∧ IsRun isDigit ds ∧
      v = signed sign (Text.valueOf base ds) := by
  refine Finds.named
    (Finds.mono (Finds.bind sign_finds fun sign => Finds.bind (finds_literal mark) fun _ =>
    Finds.bind (finds_run1 isDigit what) fun ds => finds_pure _) ?_)
  rintro text v rest ⟨s, t, sign, rfl, rfl, s', t', _, rfl, rfl, s'', t'', ds, rfl,
    ⟨rfl, hne, hds, -⟩, rfl, rfl⟩
  exact ⟨sign, ds, by simp, ⟨hne, hds⟩, rfl⟩

theorem markedNumber_reads {title mark what : String} {base : Nat} {m : Char} (sign : Option Unit)
    (hmark : mark.toList = ['0', m]) (hds : IsRun isDigit ds) (hrest : Ends isDigit rest) :
    (markedNumber title mark base isDigit what).Reads (signText sign ++ (mark.toList ++ ds))
      (signed sign (Text.valueOf base ds)) rest := by
  refine Reads.named (Reads.bind (sign_reads sign ?_) (Reads.bind (reads_literal mark _)
    (Reads.bind_nil (reads_run1 what hds.1 hds.2 hrest) (reads_pure _ rest))))
  intro c hc
  rw [hmark] at hc
  obtain rfl : '0' = c := by simpa using hc
  decide

theorem markedNumber_misses {title mark what : String} {base : Nat} {sign : Option Unit}
    (hsign : (optional (literal "-")).Reads (signText sign) sign body)
    (hmark : ¬ mark.toList <+: body) :
    (markedNumber title mark base isDigit what).Misses (signText sign ++ body) :=
  Misses.named (Reads.bind_misses hsign (Misses.bind (misses_literal hmark)))

theorem decimalNumber_finds : decimalNumber.Finds fun text v rest => ∃ sign ds,
    text = signText sign ++ ds ∧ IsRun Text.isDecimal ds ∧ v = signed sign (Text.valueOf 10 ds) ∧
    Ends Text.isDecimal rest := by
  have hvalue : ∀ sign ds, (decimalValue sign ds).Finds fun text v _ => text = [] ∧
      v = signed sign (Text.valueOf 10 ds) := by
    intro sign ds
    unfold decimalValue
    split
    · intro c a next h
      cases h
    · exact finds_pure _
  refine Finds.named
    (Finds.mono
      (Finds.bind sign_finds fun sign => Finds.bind (finds_run1 _ _) fun ds => hvalue sign ds) ?_)
  rintro text v rest ⟨s, t, sign, rfl, rfl, s', t', ds, rfl, ⟨rfl, hne, hds, hrest⟩, rfl, rfl⟩
  exact ⟨sign, ds, by simp, ⟨hne, hds⟩, rfl, hrest⟩

theorem IsRun.head_ne {x : Char} (h : IsRun isDigit ds) (hx : isDigit x = false) :
    ∀ c ∈ (ds ++ rest).head?, c ≠ x := by
  obtain ⟨c, tail, rfl⟩ := List.exists_cons_of_ne_nil h.1
  have hc := h.2 c List.mem_cons_self
  rintro y hy rfl
  obtain rfl : c = y := by simpa using hy
  rw [hx] at hc
  cases hc

theorem decimalNumber_reads (sign : Option Unit) (hds : IsRun Text.isDecimal ds)
    (hlimit : ds.length ≤ Text.decimalLimit) (hrest : Ends Text.isDecimal rest) :
    decimalNumber.Reads (signText sign ++ ds) (signed sign (Text.valueOf 10 ds)) rest := by
  have hvalue : (decimalValue sign ds).Reads [] (signed sign (Text.valueOf 10 ds)) rest := by
    rw [decimalValue, if_neg (Nat.not_lt.2 hlimit)]
    exact reads_pure _ rest
  exact Reads.named
    (Reads.bind (sign_reads sign (hds.head_ne rfl))
      (Reads.bind_nil (reads_run1 _ hds.1 hds.2 hrest) hvalue))

theorem decimalNumber_stops (sign : Option Unit) (hds : IsRun Text.isDecimal ds)
    (hlimit : Text.decimalLimit < ds.length) (hrest : Ends Text.isDecimal rest) :
    decimalNumber.Stops (signText sign ++ (ds ++ rest)) := by
  have hvalue : (decimalValue sign ds).Stops rest :=
    fun _ => ⟨ds.length, by rw [decimalValue, if_pos hlimit]; rfl⟩
  exact Stops.named (Reads.bind_stops (sign_reads sign (hds.head_ne rfl))
    (Reads.bind_stops (reads_run1 _ hds.1 hds.2 hrest) hvalue))

theorem decimalNumber_misses {sign : Option Unit}
    (hsign : (optional (literal "-")).Reads (signText sign) sign body)
    (hbody : Ends Text.isDecimal body) : decimalNumber.Misses (signText sign ++ body) :=
  Misses.named (Reads.bind_misses hsign (Misses.bind (misses_run1 hbody)))

theorem number_finds (d : Dialect) : (number d).Finds fun text v _ => NumberText d text v := by
  have hhexadecimal : hexadecimalNumber.Finds fun text v _ => NumberText d text v := by
    refine Finds.mono (markedNumber_finds _ _ _ _ _) ?_
    rintro text v rest ⟨sign, ds, rfl, hds, rfl⟩
    exact .mk sign (.hexadecimal hds)
  have hoctal : octalNumber.Finds fun text v _ => NumberText d text v := by
    refine Finds.mono (markedNumber_finds _ _ _ _ _) ?_
    rintro text v rest ⟨sign, ds, rfl, hds, rfl⟩
    exact .mk sign (.octal hds)
  have hdecimal : decimalNumber.Finds fun text v _ => NumberText d text v := by
    refine Finds.mono decimalNumber_finds ?_
    rintro text v rest ⟨sign, ds, rfl, hds, rfl, -⟩
    exact .mk sign (.decimal hds)
  unfold number
  apply Finds.named
  split
  · next hd =>
    have hbinary : binaryNumber.Finds fun text v _ => NumberText d text v := by
      refine Finds.mono (markedNumber_finds _ _ _ _ _) ?_
      rintro text v rest ⟨sign, ds, rfl, hds, rfl⟩
      exact .mk sign (.binary hd hds)
    exact ((hhexadecimal.orElse hbinary).orElse hoctal).orElse hdecimal
  · exact (hhexadecimal.orElse hoctal).orElse hdecimal

theorem number_misses_sign (d : Dialect) {sign : Option Unit}
    (hsign : (optional (literal "-")).Reads (signText sign) sign body)
    (hbody : Ends Text.isDecimal body) : (number d).Misses (signText sign ++ body) := by
  have hmiss : ∀ {title mark what : String} {base : Nat} {isDigit : Char → Bool} {m : Char},
      mark.toList = ['0', m] →
      (markedNumber title mark base isDigit what).Misses (signText sign ++ body) := by
    intro title mark what base isDigit m hmark
    refine markedNumber_misses hsign ?_
    rintro ⟨t, rfl⟩
    rw [hmark] at hbody
    cases ends_cons.1 hbody
  have hhexadecimal : hexadecimalNumber.Misses _ := hmiss (m := 'x') rfl
  have hbinary : binaryNumber.Misses _ := hmiss (m := 'b') rfl
  have hoctal : octalNumber.Misses _ := hmiss (m := 'o') rfl
  have hdecimal := decimalNumber_misses hsign hbody
  unfold number
  apply Misses.named
  split
  · exact ((hhexadecimal.orElse hbinary).orElse hoctal).orElse hdecimal
  · exact (hhexadecimal.orElse hoctal).orElse hdecimal

theorem number_misses (d : Dialect) (hminus : ∀ c ∈ cs.head?, c ≠ '-')
    (hcs : Ends Text.isDecimal cs) : (number d).Misses cs :=
  number_misses_sign d (sign_reads none hminus) hcs

/-- Two decimal digits are no mark of another base. -/
theorem not_marked_of_length {m : Char} (hm : Text.isDecimal m = false)
    (hds : ∀ c ∈ ds, Text.isDecimal c = true) (hlength : 1 < ds.length) :
    ¬ ['0', m] <+: ds ++ rest := by
  rintro ⟨t, ht⟩
  match ds, hlength with
  | c :: c' :: tail, _ =>
    obtain rfl : m = c' := (List.cons.inj (List.cons.inj ht).2).1
    rw [hds m (by simp)] at hm
    cases hm

/-! ## Literals -/

/-- The number literal that a text starts with. -/
structure Literal (d : Dialect) (cs lit : List Char) (v : Int) : Prop where
  front : lit <+: cs
  isNumber : NumberText d lit v
  longest : ∀ lit' w, lit' <+: cs → NumberText d lit' w → lit'.length ≤ lit.length

/-- A decimal literal with more digits than can be read. -/
def Overlong (lit : List Char) : Prop :=
  ∃ sign ds, lit = signText sign ++ ds ∧ (∀ c ∈ ds, Text.isDecimal c = true) ∧
    Text.decimalLimit < ds.length

theorem exists_literal (hfront : lit <+: cs) (hnumber : NumberText d lit v) :
    ∃ lit v, Literal d cs lit v := by
  classical
  obtain ⟨lit', w, hfront', hnumber', hlength⟩ := Nat.findGreatest_spec
    (P := fun n => ∃ lit v, lit <+: cs ∧ NumberText d lit v ∧ lit.length = n) hfront.length_le
      ⟨lit, v, hfront, hnumber, rfl⟩
  refine ⟨lit', w, hfront', hnumber', fun l u hl hu => ?_⟩
  rw [hlength]
  exact Nat.le_findGreatest hl.length_le ⟨l, u, hl, hu, rfl⟩

/-! ## Behind a literal -/

/-- No digit follows that would make the literal longer. -/
theorem Literal.ends (h : Literal d (lit ++ rest) lit v)
    (hmore : ∀ c, isDigit c = true → ∃ w, NumberText d (lit ++ [c]) w) :
    Ends isDigit rest := by
  intro c hc
  by_contra hdigit
  rw [Bool.not_eq_false] at hdigit
  obtain ⟨w, hw⟩ := hmore c hdigit
  obtain ⟨t, rfl⟩ := List.head?_eq_some_iff.1 hc
  have hlength := h.longest (lit ++ [c]) w ⟨t, by simp⟩ hw
  rw [List.length_append, List.length_singleton] at hlength
  omega

theorem IsRun.concat {c : Char} (h : IsRun isDigit ds) (hc : isDigit c = true) :
    IsRun isDigit (ds ++ [c]) := by
  refine ⟨by simp, fun x hx => ?_⟩
  obtain hx | hx := List.mem_append.1 hx
  · exact h.2 x hx
  · rwa [List.mem_singleton.1 hx]

theorem isRun_singleton {c : Char} (h : isDigit c = true) : IsRun isDigit [c] :=
  ⟨nofun, List.forall_mem_singleton.2 h⟩

theorem markedNumber_misses_digits {title mark what : String} {base : Nat} {m : Char}
    {body : List Char} (sign : Option Unit) (hmark : mark.toList = ['0', m])
    (hbody : ∀ c ∈ body.head?, c ≠ '-') (hdigits : ∀ t, body = '0' :: m :: t → Ends isDigit t) :
    (markedNumber title mark base isDigit what).Misses (signText sign ++ body) := by
  by_cases hfront : mark.toList <+: body
  · obtain ⟨t, rfl⟩ := hfront
    have hends := hdigits t (by rw [hmark]; rfl)
    exact Misses.named
      (Reads.bind_misses (sign_reads sign hbody)
        (Reads.bind_misses (reads_literal mark t) (Misses.bind (misses_run1 hends))))
  · exact markedNumber_misses (sign_reads sign hbody) hfront

theorem Literal.ends_marked {sign : Option Unit}
    (h : Literal d (signText sign ++ ds ++ rest) (signText sign ++ ds) v) {m : Char}
    (hds : ∀ c ∈ ds, Text.isDecimal c = true) (hm : Text.isDecimal m = false)
    (hmarked : ∀ c, isDigit c = true → ∃ n, UnsignedText d ['0', m, c] n) :
    ∀ t, ds ++ rest = '0' :: m :: t → Ends isDigit t := by
  intro t ht c hc
  by_contra hdigit
  rw [Bool.not_eq_false] at hdigit
  obtain ⟨n, hn⟩ := hmarked c hdigit
  obtain ⟨t, rfl⟩ := List.head?_eq_some_iff.1 hc
  have hlength :=
    h.longest (signText sign ++ ['0', m, c]) _
      ⟨t, by rw [List.append_assoc, List.append_assoc, ht]; rfl⟩ (.mk sign hn)
  have hnot : ¬1 < ds.length := fun hlt => not_marked_of_length hm hds hlt ⟨c :: t, ht.symm⟩
  simp only [List.length_append, List.length_cons, List.length_nil] at hlength
  omega

/-! ## The reader of numbers -/

theorem Literal.reads (h : Literal d (lit ++ rest) lit v) (hshort : ¬Overlong lit) :
    (number d).Reads lit v rest := by
  obtain ⟨sign, hunsigned⟩ := id h.isNumber
  next cs n =>
  have hmiss : ∀ {title mark what : String} {base : Nat} {isDigit : Char → Bool} {m : Char},
      mark.toList = ['0', m] →
      ¬ ['0', m] <+: cs ++ rest → (∀ c ∈ (cs ++ rest).head?, c ≠ '-') →
      (markedNumber title mark base isDigit what).Misses (signText sign ++ cs ++ rest) := by
    intro title mark what base isDigit m hmark hnot hminus
    rw [List.append_assoc]
    exact markedNumber_misses (sign_reads sign hminus) (hmark ▸ hnot)
  unfold Grammar.number
  apply Reads.named
  cases hunsigned with
  | hexadecimal hds =>
    have hends : Ends Text.isHexadecimal rest := h.ends fun c hc => ⟨_, by
      rw [List.append_assoc]
      exact .mk sign (.hexadecimal (hds.concat hc))⟩
    have hread : hexadecimalNumber.Reads _ _ rest := markedNumber_reads sign rfl hds hends
    split
    · exact hread.orElse.orElse.orElse
    · exact hread.orElse.orElse
  | binary hd hds =>
    have hends : Ends Text.isBinary rest := h.ends fun c hc => ⟨_, by
      rw [List.append_assoc]
      exact .mk sign (.binary hd (hds.concat hc))⟩
    have hread : binaryNumber.Reads _ _ rest := markedNumber_reads sign rfl hds hends
    have hhexadecimal : hexadecimalNumber.Misses _ := hmiss (m := 'x') rfl (by simp) (by simp)
    rw [if_pos hd]
    exact (hhexadecimal.orElse_reads hread).orElse.orElse
  | octal hds =>
    have hends : Ends Text.isOctal rest := h.ends fun c hc => ⟨_, by
      rw [List.append_assoc]
      exact .mk sign (.octal (hds.concat hc))⟩
    have hread : octalNumber.Reads _ _ rest := markedNumber_reads sign rfl hds hends
    have hhexadecimal : hexadecimalNumber.Misses _ := hmiss (m := 'x') rfl (by simp) (by simp)
    have hbinary : binaryNumber.Misses _ := hmiss (m := 'b') rfl (by simp) (by simp)
    split
    · exact ((hhexadecimal.orElse hbinary).orElse_reads hread).orElse
    · exact (hhexadecimal.orElse_reads hread).orElse
  | decimal hds =>
    have hends : Ends Text.isDecimal rest := h.ends fun c hc => ⟨_, by
      rw [List.append_assoc]
      exact .mk sign (.decimal (hds.concat hc))⟩
    have hlimit : cs.length ≤ Text.decimalLimit :=
      Nat.not_lt.1 fun hlt => hshort ⟨sign, cs, rfl, hds.2, hlt⟩
    have hread : decimalNumber.Reads _ _ rest := decimalNumber_reads sign hds hlimit hends
    have hminus : ∀ c ∈ (cs ++ rest).head?, c ≠ '-' := hds.head_ne rfl
    have hhexadecimal : hexadecimalNumber.Misses (signText sign ++ (cs ++ rest)) :=
      markedNumber_misses_digits sign rfl hminus
        (h.ends_marked hds.2 rfl fun c hc => ⟨_, .hexadecimal (isRun_singleton hc)⟩)
    have hoctal : octalNumber.Misses (signText sign ++ (cs ++ rest)) :=
      markedNumber_misses_digits sign rfl hminus
        (h.ends_marked hds.2 rfl fun c hc => ⟨_, .octal (isRun_singleton hc)⟩)
    rw [← List.append_assoc] at hhexadecimal hoctal
    split
    · next hd =>
      have hbinary : binaryNumber.Misses (signText sign ++ (cs ++ rest)) :=
        markedNumber_misses_digits sign rfl hminus
          (h.ends_marked hds.2 rfl fun c hc => ⟨_, .binary hd (isRun_singleton hc)⟩)
      rw [← List.append_assoc] at hbinary
      exact ((hhexadecimal.orElse hbinary).orElse hoctal).orElse_reads hread
    · exact (hhexadecimal.orElse hoctal).orElse_reads hread

theorem UnsignedText.nameChars (h : UnsignedText d cs n) : ∀ c ∈ cs, isNameChar c = true := by
  have hmarked : ∀ {m : Char} {isDigit : Char → Bool} {ds : List Char}, isNameChar m = true →
      IsRun isDigit ds →
      (∀ c, isDigit c = true → isNameChar c = true) → ∀ c ∈ '0' :: m :: ds,
      isNameChar c = true := by
    intro m isDigit ds hm hds hsub
    exact List.forall_mem_cons.2 ⟨rfl, List.forall_mem_cons.2 ⟨hm, fun c hc => hsub c (hds.2 c hc)⟩⟩
  cases h with
  | hexadecimal hds => exact hmarked rfl hds fun c => isNameChar_of_isHexadecimal
  | octal hds => exact hmarked rfl hds fun c hc => isNameChar_of_isDecimal (isDecimal_of_isOctal hc)
  | binary _ hds =>
    exact hmarked rfl hds fun c hc => isNameChar_of_isDecimal (isDecimal_of_isBinary hc)
  | decimal hds => exact fun c hc => isNameChar_of_isDecimal (hds.2 c hc)

/-- Operands consist of the characters of names, at signs and minus signs. -/
theorem NumberText.nameChars (h : NumberText d cs v) : ∀ c ∈ cs.tail, isNameChar c = true := by
  obtain ⟨sign, hcs⟩ := h
  intro c hc
  cases sign with
  | none => exact hcs.nameChars c (List.mem_of_mem_tail hc)
  | some => exact hcs.nameChars c hc

theorem UnsignedText.ne_nil (h : UnsignedText d cs n) : cs ≠ [] := by
  cases h with
  | decimal hds => exact hds.1
  | _ => nofun

theorem literal_of_ends (sign : Option Unit) (h : UnsignedText d cs n)
    (hrest : Ends isNameChar rest) :
    Literal d (signText sign ++ cs ++ rest) (signText sign ++ cs) (signed sign n) := by
  refine ⟨List.prefix_append _ _, .mk sign h, fun lit w hfront hnumber => ?_⟩
  by_contra hlt
  obtain ⟨more, rfl⟩ :=
    List.prefix_of_prefix_length_le (List.prefix_append _ rest) hfront (by omega)
  have hmore : more <+: rest := (List.prefix_append_right_inj _).1 hfront
  cases more with
  | nil => simp at hlt
  | cons c t =>
    obtain ⟨t', rfl⟩ := hmore
    have hc := ends_cons.1 hrest
    rw [hnumber.nameChars c ?_] at hc
    · cases hc
    · rw [List.tail_append_of_ne_nil (by simp [h.ne_nil])]
      simp

theorem number_reads (sign : Option Unit) (h : UnsignedText d cs n) (hrest : Ends isNameChar rest)
    (hlimit : (∀ c ∈ cs, Text.isDecimal c = true) → cs.length ≤ Text.decimalLimit) :
    (number d).Reads (signText sign ++ cs) (signed sign n) rest := by
  refine (literal_of_ends sign h hrest).reads ?_
  rintro ⟨sign', ds, heq, hds, hlong⟩
  have hminus : '-' ∉ ds := fun hmem => absurd (hds _ hmem) (by decide)
  have hminus' : '-' ∉ cs := fun hmem => absurd (h.nameChars _ hmem) (by decide)
  obtain rfl : cs = ds := by
    cases sign with
    | none =>
      cases sign' with
      | none => exact heq
      | some =>
        obtain rfl : cs = '-' :: ds := heq
        exact absurd List.mem_cons_self hminus'
    | some =>
      cases sign' with
      | none =>
        obtain rfl : '-' :: cs = ds := heq
        exact absurd List.mem_cons_self hminus
      | some => exact (List.cons.inj heq).2
  exact absurd (hlimit hds) (Nat.not_le.2 hlong)

theorem number_stops (sign : Option Unit) (hds : IsRun Text.isDecimal ds)
    (hlimit : Text.decimalLimit < ds.length) (hrest : Ends Text.isDecimal rest) :
    (number d).Stops (signText sign ++ (ds ++ rest)) := by
  have hlength : 1 < ds.length := hlimit.trans' (by decide)
  have hmiss : ∀ {title mark what : String} {base : Nat} {isDigit : Char → Bool} {m : Char},
      mark.toList = ['0', m] →
      Text.isDecimal m = false →
      (markedNumber title mark base isDigit what).Misses (signText sign ++ (ds ++ rest)) := by
    intro title mark what base isDigit m hmark hm
    exact markedNumber_misses (sign_reads sign (hds.head_ne rfl))
      (hmark ▸ not_marked_of_length hm hds.2 hlength)
  have hhexadecimal : hexadecimalNumber.Misses _ := hmiss (m := 'x') rfl rfl
  have hbinary : binaryNumber.Misses _ := hmiss (m := 'b') rfl rfl
  have hoctal : octalNumber.Misses _ := hmiss (m := 'o') rfl rfl
  have hdecimal := decimalNumber_stops sign hds hlimit hrest
  unfold number
  apply Stops.named
  split
  · exact ((hhexadecimal.orElse hbinary).orElse hoctal).orElse_stops hdecimal
  · exact (hhexadecimal.orElse hoctal).orElse_stops hdecimal

theorem Literal.stops (h : Literal d (lit ++ rest) lit v) (hlong : Overlong lit) :
    (number d).Stops (lit ++ rest) := by
  obtain ⟨sign, ds, rfl, hds, hlimit⟩ := hlong
  have hrun : IsRun Text.isDecimal ds := ⟨List.length_pos_iff.1 (Nat.zero_lt_of_lt hlimit), hds⟩
  have hends : Ends Text.isDecimal rest := h.ends fun c hc => ⟨_, by
    rw [List.append_assoc]
    exact .mk sign (.decimal (hrun.concat hc))⟩
  rw [List.append_assoc]
  exact number_stops sign hrun hlimit hends

theorem number_misses_of_none (h : ∀ lit v, lit <+: cs → ¬NumberText d lit v) :
    (number d).Misses cs := by
  have hnone : ∀ sign body, cs = signText sign ++ body → Ends Text.isDecimal body := by
    rintro sign body rfl c hc
    by_contra hdigit
    rw [Bool.not_eq_false] at hdigit
    obtain ⟨t, rfl⟩ := List.head?_eq_some_iff.1 hc
    exact h (signText sign ++ [c]) _ ⟨t, by simp⟩ (.mk sign (.decimal (isRun_singleton hdigit)))
  by_cases hminus : ∀ c ∈ cs.head?, c ≠ '-'
  · exact number_misses d hminus (hnone none cs rfl)
  · push Not at hminus
    obtain ⟨_, hc, rfl⟩ := hminus
    obtain ⟨body, rfl⟩ := List.head?_eq_some_iff.1 hc
    exact number_misses_sign d (Reads.optional (reads_literal "-" body)) (hnone (some ()) body rfl)

/-! ## Whole texts -/

theorem Literal.readFront_eq_ok {s : String} (h : Literal d s.toList lit v)
    (hshort : ¬Overlong lit) :
    ∃ left, readFront (number d) s = .ok (v, left) := by
  obtain ⟨rest, hrest⟩ := h.front
  rw [← hrest] at h
  exact ⟨rest, (h.reads hshort).readFront hrest.symm⟩

theorem Literal.readFront_eq_error {s : String} (h : Literal d s.toList lit v)
    (hlong : Overlong lit) :
    ∃ count, readFront (number d) s = .error (.tooManyDigits count) := by
  obtain ⟨rest, hrest⟩ := h.front
  rw [← hrest] at h
  exact (hrest ▸ h.stops hlong).readFront

theorem literal_or_unreadable (d : Dialect) (s : String) :
    (∃ lit v, Literal d s.toList lit v) ∨
      ∃ place, readFront (number d) s = .error (.unreadable place) := by
  by_cases hnone : ∀ lit v, lit <+: s.toList → ¬NumberText d lit v
  · exact .inr (number_misses_of_none hnone).readFront
  · push Not at hnone
    obtain ⟨lit, v, hfront, hnumber⟩ := hnone
    exact .inl (exists_literal hfront hnumber)

end Assembler.Grammar
