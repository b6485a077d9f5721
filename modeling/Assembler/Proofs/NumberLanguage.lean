import Assembler.Proofs.OperandLanguage

/-! # Numbers base by base

The reader of numbers asks for one base after another.  So it takes the longest number in the first
base that has any in front (`Base.Longest`), which is also the longest of all: in front of one text
two bases meet only in a decimal zero before the mark of the other base
(`Base.Spells.zero_or_zero`).  `number_language` says this of whole texts, and that a number written
in any base of the dialect is read back before everything that could not continue it. -/

namespace Assembler.Grammar
open Reader
set_option autoImplicit false

variable {d : Dialect} {cs lit lit' ds rest : List Char} {v w : Int}

/-! ## Bases -/

/-- The bases that numbers are written in. -/
inductive Base where
  | hexadecimal
  | binary
  | octal
  | decimal
  deriving DecidableEq, Repr

namespace Base

def radix : Base → Nat
  | hexadecimal => 16
  | binary => 2
  | octal => 8
  | decimal => 10

/-- What stands in front of the digits. -/
def mark : Base → List Char
  | hexadecimal => ['0', 'x']
  | binary => ['0', 'b']
  | octal => ['0', 'o']
  | decimal => []

def isDigit : Base → Char → Bool
  | hexadecimal => Text.isHexadecimal
  | binary => Text.isBinary
  | octal => Text.isOctal
  | decimal => Text.isDecimal

/-- The characters of a number in a base and its value: a sign or none, the mark, and digits that
count by their places. -/
inductive Spells (b : Base) : List Char → Int → Prop
  | mk {ds : List Char} (sign : Option Unit) : IsRun b.isDigit ds →
      b.Spells (signText sign ++ (b.mark ++ ds))
        (signed sign (Nat.ofDigits b.radix (ds.reverse.map Text.digitValue)))

/-- The longest number in a base that a text starts with. -/
structure Longest (b : Base) (cs lit : List Char) (v : Int) : Prop where
  front : lit <+: cs
  spells : b.Spells lit v
  longest : ∀ lit' w, lit' <+: cs → b.Spells lit' w → lit'.length ≤ lit.length

/-- How a number is written in a base. -/
def render (b : Base) (letters : Text.LetterCase) (n : Int) : List Char :=
  signText (if n < 0 then some () else none) ++ (b.mark ++ Text.digits letters b.radix n.natAbs)

end Base

/-- The bases of a dialect, in the order in which they are asked for. -/
def bases (d : Dialect) : List Base :=
  if d.hasRelative then [.hexadecimal, .binary, .octal, .decimal]
    else [.hexadecimal, .octal, .decimal]

/-- Some number goes on with a character behind these. -/
def Continues (d : Dialect) (cs : List Char) (c : Char) : Prop :=
  ∃ b ∈ bases d, ∃ more v, b.Spells (cs ++ c :: more) v

theorem bases_ordered (d : Dialect) : (bases d).Pairwise fun b b' => b ≠ .decimal ∧ b ≠ b' := by
  unfold bases
  split <;> decide

theorem valueOf_eq_ofDigits (base : Nat) (ds : List Char) :
    Text.valueOf base ds = Nat.ofDigits base (ds.reverse.map Text.digitValue) := by
  induction ds using List.reverseRecOn with
  | nil => rfl
  | append_singleton ds c ih =>
    rw [Text.valueOf_concat, ih, List.reverse_concat, List.map_cons, Nat.ofDigits_cons]
    ring

theorem mem_bases {b : Base} : b ∈ bases d ↔ (b = .binary → d.hasRelative = true) := by
  unfold bases
  cases b <;> cases d.hasRelative <;> decide

/-- The grammar of numbers, told by bases. -/
theorem numberText_iff : NumberText d lit v ↔ ∃ b ∈ bases d, b.Spells lit v := by
  constructor
  · rintro ⟨sign, h⟩
    cases h with
    | hexadecimal hds =>
      rw [valueOf_eq_ofDigits]
      exact ⟨.hexadecimal, mem_bases.2 (by simp), .mk sign hds⟩
    | octal hds =>
      rw [valueOf_eq_ofDigits]
      exact ⟨.octal, mem_bases.2 (by simp), .mk sign hds⟩
    | binary hd hds =>
      rw [valueOf_eq_ofDigits]
      exact ⟨.binary, mem_bases.2 fun _ => hd, .mk sign hds⟩
    | decimal hds =>
      rw [valueOf_eq_ofDigits]
      exact ⟨.decimal, mem_bases.2 (by simp), .mk sign hds⟩
  · rintro ⟨b, hb, sign, hds⟩
    rw [← valueOf_eq_ofDigits]
    cases b with
    | hexadecimal => exact .mk sign (.hexadecimal hds)
    | octal => exact .mk sign (.octal hds)
    | binary => exact .mk sign (.binary (mem_bases.1 hb rfl) hds)
    | decimal => exact .mk sign (.decimal hds)

/-! ## Numbers in front of one text -/

theorem Base.mark_eq {b : Base} (h : b ≠ .decimal) :
    ∃ m, b.mark = ['0', m] ∧ Text.isDecimal m = false := by
  cases b with
  | hexadecimal => exact ⟨'x', rfl, rfl⟩
  | binary => exact ⟨'b', rfl, rfl⟩
  | octal => exact ⟨'o', rfl, rfl⟩
  | decimal => exact absurd rfl h

theorem Base.mark_injective {b b' : Base} (h : b.mark = b'.mark) : b = b' := by
  revert h
  cases b <;> cases b' <;> decide

theorem Base.head {b : Base} (hds : IsRun b.isDigit ds) :
    ∃ c t, b.mark ++ ds = c :: t ∧ Text.isDecimal c = true := by
  by_cases hb : b = .decimal
  · subst hb
    obtain ⟨c, t, rfl⟩ := List.exists_cons_of_ne_nil hds.1
    exact ⟨c, t, rfl, hds.2 c List.mem_cons_self⟩
  · obtain ⟨m, hmark, -⟩ := Base.mark_eq hb
    exact ⟨'0', m :: ds, by rw [hmark]; rfl, rfl⟩

theorem signText_append_inj {sign sign' : Option Unit} {c c' : Char} {t t' : List Char}
    (hc : Text.isDecimal c = true) (hc' : Text.isDecimal c' = true)
    (h : signText sign ++ c :: t = signText sign' ++ c' :: t') :
    sign = sign' ∧ c :: t = c' :: t' := by
  cases sign with
  | none =>
    cases sign' with
    | none => exact ⟨rfl, h⟩
    | some u =>
      obtain ⟨rfl, -⟩ := List.cons.inj h
      cases hc
  | some u =>
    cases sign' with
    | none =>
      obtain ⟨rfl, -⟩ := List.cons.inj h
      cases hc'
    | some u' => exact ⟨rfl, (List.cons.inj h).2⟩

/-- Two numbers in front of one text have the same sign. -/
theorem Base.Spells.meet {b b' : Base} (h : b.Spells lit v) (h' : b'.Spells lit' w)
    (hfront : lit <+: cs) (hfront' : lit' <+: cs) :
    ∃ sign ds ds' body, IsRun b.isDigit ds ∧ IsRun b'.isDigit ds' ∧
      lit = signText sign ++ (b.mark ++ ds) ∧
      lit' = signText sign ++ (b'.mark ++ ds') ∧ b.mark ++ ds <+: body ∧
      b'.mark ++ ds' <+: body := by
  obtain @⟨ds, sign, hds⟩ := h
  obtain @⟨ds', sign', hds'⟩ := h'
  obtain ⟨t, rfl⟩ := hfront
  obtain ⟨t', ht⟩ := hfront'
  obtain ⟨c, x, hx, hc⟩ := Base.head hds
  obtain ⟨c', x', hx', hc'⟩ := Base.head hds'
  obtain ⟨rfl, hbody⟩ : sign' = sign ∧ b'.mark ++ ds' ++ t' = b.mark ++ ds ++ t := by
    rw [hx, hx'] at ht ⊢
    exact signText_append_inj hc' hc (by simpa using ht)
  exact ⟨sign', ds, ds', b.mark ++ ds ++ t, hds, hds', rfl, rfl, List.prefix_append _ _, t', hbody⟩

theorem Base.decimal_before_mark {b : Base} {body : List Char} (hb : b ≠ .decimal)
    (hfront : b.mark ++ ds <+: body) {zs : List Char} (hzs : IsRun Text.isDecimal zs)
    (hfront' : zs <+: body) : zs = ['0'] := by
  obtain ⟨m, hmark, hm⟩ := Base.mark_eq hb
  rw [hmark] at hfront
  have hshort : ¬1 < zs.length := fun hlong => by
    obtain ⟨t, rfl⟩ := hfront'
    exact not_marked_of_length hm hzs.2 hlong ((List.prefix_append _ ds).trans hfront)
  obtain ⟨z, zs, rfl⟩ := List.exists_cons_of_ne_nil hzs.1
  obtain rfl : zs = [] := List.length_eq_zero_iff.1 (by simpa using hshort)
  obtain ⟨t, rfl⟩ := hfront'
  rw [(List.cons_prefix_cons.1 hfront).1]

/-- Of numbers in two bases in front of one text, one is a decimal zero and the other has a mark. -/
theorem Base.Spells.zero_or_zero {b b' : Base} (h : b.Spells lit v) (h' : b'.Spells lit' w)
    (hfront : lit <+: cs) (hfront' : lit' <+: cs) (hne : b ≠ b') :
    ∃ sign m ds, (b = .decimal ∧ lit = signText sign ++ ['0'] ∧ b'.mark = ['0', m] ∧
      lit' = signText sign ++ '0' :: m :: ds) ∨
      (b' = .decimal ∧ lit' = signText sign ++ ['0'] ∧ b.mark = ['0', m] ∧
      lit = signText sign ++ '0' :: m :: ds) := by
  obtain ⟨sign, ds, ds', body, hds, hds', rfl, rfl, hbody, hbody'⟩ := h.meet h' hfront hfront'
  by_cases hb : b = .decimal
  · subst hb
    obtain ⟨m, hmark, -⟩ := Base.mark_eq (Ne.symm hne)
    obtain rfl := Base.decimal_before_mark (Ne.symm hne) hbody' hds hbody
    exact ⟨sign, m, ds', .inl ⟨rfl, rfl, hmark, by rw [hmark]; rfl⟩⟩
  · obtain ⟨m, hmark, -⟩ := Base.mark_eq hb
    by_cases hb' : b' = .decimal
    · subst hb'
      obtain rfl := Base.decimal_before_mark hb hbody hds' hbody'
      exact ⟨sign, m, ds, .inr ⟨rfl, rfl, hmark, by rw [hmark]; rfl⟩⟩
    · obtain ⟨m', hmark', -⟩ := Base.mark_eq hb'
      have heq : b.mark = b'.mark :=
        (List.prefix_of_prefix_length_le ((List.prefix_append _ ds).trans hbody)
          ((List.prefix_append _ ds').trans hbody') (by rw [hmark, hmark']; rfl)).eq_of_length
            (by rw [hmark, hmark']; rfl)
      exact absurd (Base.mark_injective heq) hne

theorem Base.Spells.length_lt {b b' : Base} (h : b.Spells lit v) (h' : b'.Spells lit' w)
    (hfront : lit <+: cs) (hfront' : lit' <+: cs) (hne : b ≠ b') (hb : b ≠ .decimal) :
    lit'.length < lit.length := by
  obtain ⟨sign, m, ds, ⟨hdecimal, -⟩ | ⟨-, rfl, -, rfl⟩⟩ := h.zero_or_zero h' hfront hfront' hne
  · exact absurd hdecimal hb
  · simp only [List.length_append, List.length_cons, List.length_nil]
    omega

theorem Base.Spells.continues {b : Base} (h : b.Spells lit v) {c : Char} (hc : Continues d lit c) :
    b.isDigit c = true ∨ b = .decimal ∧ ∃ sign, lit = signText sign ++ ['0'] ∧ ∃ b' ∈ bases d,
      b'.mark = ['0', c] := by
  obtain ⟨b', hb', more, w, hmore⟩ := hc
  by_cases hne : b = b'
  · subst hne
    obtain ⟨sign, ds, ds', -, -, hds', rfl, heq, -⟩ :=
      h.meet hmore (List.prefix_append _ _) List.prefix_rfl
    simp only [List.append_assoc, List.append_cancel_left_eq] at heq
    exact .inl (hds'.2 c (by rw [← heq]; simp))
  · obtain ⟨sign, m, ds, ⟨hb, rfl, hmark, heq⟩ | ⟨-, heq, -, rfl⟩⟩ :=
      h.zero_or_zero hmore (List.prefix_append _ _) List.prefix_rfl hne
    · simp only [List.append_assoc, List.append_cancel_left_eq, List.singleton_append,
        List.cons.injEq, true_and] at heq
      exact .inr ⟨hb, sign, rfl, b', hb', by rw [hmark, heq.1]⟩
    · simp at heq

theorem literal_iff : Literal d cs lit v ↔ ∃ before b after, bases d = before ++ b :: after ∧
    (∀ b' ∈ before, ∀ lit' w, lit' <+: cs → ¬b'.Spells lit' w) ∧ b.Longest cs lit v := by
  constructor
  · intro h
    obtain ⟨b, hb, hspells⟩ := numberText_iff.1 h.isNumber
    obtain ⟨before, after, hbases⟩ := List.append_of_mem hb
    have hordered := bases_ordered d
    rw [hbases, List.pairwise_append] at hordered
    refine ⟨before, b, after, hbases, fun b' hb' lit' w hfront hspells' => ?_, h.front, hspells,
      fun lit' w hfront hspells' =>
      h.longest lit' w hfront (numberText_iff.2 ⟨b, hb, hspells'⟩)⟩
    have hle := h.longest lit' w hfront (numberText_iff.2 ⟨b', by simp [hbases, hb'], hspells'⟩)
    obtain ⟨hdecimal, hne⟩ := hordered.2.2 b' hb' b List.mem_cons_self
    have hlt := hspells'.length_lt hspells hfront h.front hne hdecimal
    omega
  · rintro ⟨before, b, after, hbases, hfirst, h⟩
    have hordered := bases_ordered d
    rw [hbases, List.pairwise_append, List.pairwise_cons] at hordered
    refine ⟨h.front, numberText_iff.2 ⟨b, by simp [hbases], h.spells⟩,
      fun lit' w hfront hnumber => ?_⟩
    obtain ⟨b', hb', hspells⟩ := numberText_iff.1 hnumber
    rw [hbases, List.mem_append, List.mem_cons] at hb'
    obtain hbefore | rfl | hafter := hb'
    · exact absurd hspells (hfirst b' hbefore lit' w hfront)
    · exact h.longest lit' w hfront hspells
    · obtain ⟨hdecimal, hne⟩ := hordered.2.1.1 b' hafter
      exact (h.spells.length_lt hspells h.front hfront hne hdecimal).le

/-! ## Whole texts -/

theorem DigitsBounded.not_overlong (h : DigitsBounded cs) (hfront : lit <+: cs) :
    ¬Overlong lit := by
  rintro ⟨sign, ds, rfl, hds, hlong⟩
  exact absurd (h ds ((List.suffix_append _ ds).isInfix.trans hfront.isInfix) hds)
    (Nat.not_le.2 hlong)

theorem number_readFront_iff {t : String} (hlimit : DigitsBounded t.toList) :
    readFront (number d) t = .ok (v, rest) ↔ ∃ lit, Literal d t.toList lit v ∧
      t.toList = lit ++ rest := by
  have hread : ∀ {lit v rest}, Literal d t.toList lit v → t.toList = lit ++ rest →
      readFront (number d) t = .ok (v, rest) := by
    intro lit v rest h ht
    have hshort := hlimit.not_overlong h.front
    rw [ht] at h
    exact (h.reads hshort).readFront ht
  constructor
  · intro h
    obtain ⟨text, htext, hnumber⟩ := (number_finds d).readFront h
    obtain ⟨lit, w, hliteral⟩ := exists_literal ⟨rest, htext.symm⟩ hnumber
    obtain ⟨rest', hrest'⟩ := hliteral.front
    obtain ⟨rfl, rfl⟩ := Prod.mk.inj (Except.ok.inj (h.symm.trans (hread hliteral hrest'.symm)))
    exact ⟨lit, hliteral, hrest'.symm⟩
  · rintro ⟨lit, h, ht⟩
    exact hread h ht

theorem exists_literal_iff : (∃ lit v, Literal d cs lit v) ↔
    ∃ sign c t, cs = signText sign ++ c :: t ∧ Text.isDecimal c = true := by
  constructor
  · rintro ⟨lit, v, h⟩
    obtain ⟨b, -, sign, hds⟩ := numberText_iff.1 h.isNumber
    obtain ⟨t, rfl⟩ := h.front
    obtain ⟨c, x, hx, hc⟩ := Base.head hds
    exact ⟨sign, c, x ++ t, by rw [hx]; simp, hc⟩
  · rintro ⟨sign, c, t, rfl, hc⟩
    have hfront : signText sign ++ [c] <+: signText sign ++ c :: t := ⟨t, by simp⟩
    exact exists_literal hfront (.mk sign (.decimal (isRun_singleton hc)))

/-! ## Written numbers -/

namespace Base

theorem radix_bounds (b : Base) : 1 < b.radix ∧ b.radix ≤ 16 := by cases b <;> decide

theorem isDigit_digit (b : Base) (letters : Text.LetterCase) :
    ∀ m < b.radix, b.isDigit (Text.digit letters m) = true := by
  cases b <;> cases letters <;> decide

theorem isRun_digits (b : Base) (letters : Text.LetterCase) (n : Nat) :
    IsRun b.isDigit (Text.digits letters b.radix n) := by
  refine ⟨Text.digits_ne_nil _ _ _, fun c hc => ?_⟩
  obtain ⟨m, hm, rfl⟩ := Text.exists_of_mem_digits letters b.radix_bounds.1 n c hc
  exact b.isDigit_digit letters m hm

theorem spells_render (b : Base) (letters : Text.LetterCase) (n : Int) :
    b.Spells (b.render letters n) n := by
  have hvalue := Text.valueOf_digits letters b.radix_bounds.1 b.radix_bounds.2 n.natAbs
  have hspells :=
    Spells.mk (b := b) (if n < 0 then some () else none) (b.isRun_digits letters n.natAbs)
  rw [← valueOf_eq_ofDigits, hvalue] at hspells
  have hsigned : signed (if n < 0 then some () else none) n.natAbs = n := by
    split
    · change -(n.natAbs : Int) = n
      omega
    · change (n.natAbs : Int) = n
      omega
  rwa [hsigned] at hspells

/-- Only a decimal number can have too many digits. -/
theorem not_overlong_render (b : Base) (letters : Text.LetterCase) {n : Int}
    (hn : b = .decimal → n.natAbs < 10 ^ Text.decimalLimit) : ¬Overlong (b.render letters n) := by
  rintro ⟨sign, ds, heq, hds, hlong⟩
  have hrun := b.isRun_digits letters n.natAbs
  obtain ⟨c, x, hx, hc⟩ := Base.head hrun
  obtain ⟨c', x', rfl⟩ :=
    List.exists_cons_of_ne_nil (List.length_pos_iff.1 (Nat.zero_lt_of_lt hlong))
  obtain ⟨-, hbody⟩ : _ ∧ b.mark ++ Text.digits letters b.radix n.natAbs = c' :: x' := by
    rw [render, hx] at heq
    rw [hx]
    exact signText_append_inj hc (hds c' List.mem_cons_self) heq
  by_cases hb : b = .decimal
  · subst hb
    have hlength : (Text.digits letters 10 n.natAbs).length ≤ Text.decimalLimit := by
      have hle := (Nat.length_toDigits_le_iff (b := 10) (by decide) (by decide)).2 (hn rfl)
      cases letters <;> simpa [Text.digits] using hle
    rw [← hbody] at hlong
    exact absurd hlength (Nat.not_le.2 hlong)
  · obtain ⟨m, hmark, hm⟩ := Base.mark_eq hb
    rw [hmark] at hbody
    rw [hds m (by rw [← hbody]; simp)] at hm
    cases hm

end Base

theorem literal_of_not_continues (h : NumberText d lit v)
    (hrest : ∀ c ∈ rest.head?, ¬Continues d lit c) :
    Literal d (lit ++ rest) lit v := by
  refine ⟨List.prefix_append _ _, h, fun lit' w hfront hnumber => ?_⟩
  by_contra hlt
  obtain ⟨more, rfl⟩ :=
    List.prefix_of_prefix_length_le (List.prefix_append _ rest) hfront (by omega)
  have hmore : more <+: rest := (List.prefix_append_right_inj _).1 hfront
  cases more with
  | nil => simp at hlt
  | cons c t =>
    obtain ⟨t', rfl⟩ := hmore
    obtain ⟨b, hb, hspells⟩ := numberText_iff.1 hnumber
    exact hrest c rfl ⟨b, hb, t, w, hspells⟩

/-- Which numbers are read.  In a text without too many digits in a row a number is read just if a
decimal digit stands in front, with or without a minus sign; it is the longest one in the first base
that has one there, and the rest is left.  And a number that is written in a base of the dialect is
read back, whatever follows that could not continue it. -/
theorem number_language (d : Dialect) :
    (∀ t : String, DigitsBounded t.toList →
      ((∃ read, readFront (number d) t = .ok read) ↔
        ∃ sign c cs, t.toList = signText sign ++ c :: cs ∧ Text.isDecimal c = true) ∧
      ∀ v rest, readFront (number d) t = .ok (v, rest) ↔ ∃ before b after lit,
      bases d = before ++ b :: after ∧
        (∀ b' ∈ before, ∀ lit' w, lit' <+: t.toList → ¬b'.Spells lit' w) ∧
        b.Longest t.toList lit v ∧ t.toList = lit ++ rest) ∧
    ∀ b ∈ bases d, ∀ (letters : Text.LetterCase) (n : Int) (rest : List Char),
    (b = .decimal → n.natAbs < 10 ^ Text.decimalLimit) →
      (∀ c ∈ rest.head?, ¬Continues d (b.render letters n) c) →
        readFront (number d) (String.ofList (b.render letters n ++ rest)) = .ok (n, rest) := by
  refine ⟨fun t hlimit => ⟨?_, fun v rest => ?_⟩, fun b hb letters n rest hn hrest => ?_⟩
  · rw [← exists_literal_iff (d := d)]
    constructor
    · rintro ⟨⟨v, rest⟩, hread⟩
      obtain ⟨lit, hliteral, -⟩ := (number_readFront_iff hlimit).1 hread
      exact ⟨lit, v, hliteral⟩
    · rintro ⟨lit, v, hliteral⟩
      obtain ⟨rest, hrest⟩ := hliteral.front
      exact ⟨(v, rest), (number_readFront_iff hlimit).2 ⟨lit, hliteral, hrest.symm⟩⟩
  · rw [number_readFront_iff hlimit]
    constructor
    · rintro ⟨lit, hliteral, ht⟩
      obtain ⟨before, b, after, hbases, hfirst, hlongest⟩ := literal_iff.1 hliteral
      exact ⟨before, b, after, lit, hbases, hfirst, hlongest, ht⟩
    · rintro ⟨before, b, after, lit, hbases, hfirst, hlongest, ht⟩
      exact ⟨lit, literal_iff.2 ⟨before, b, after, hbases, hfirst, hlongest⟩, ht⟩
  · have hliteral :=
      literal_of_not_continues (numberText_iff.2 ⟨b, hb, b.spells_render letters n⟩) hrest
    exact (hliteral.reads (b.not_overlong_render letters hn)).readFront (String.toList_ofList)

/-- A text with a binary mark and no binary digit behind it gives a decimal zero; a hexadecimal
number ends before a letter that is no digit. -/
theorem unfinished_mark_and_hexadecimal :
    (DigitsBounded "-0b2, 7".toList ∧ ∃ before b after lit,
      bases ⟨.sectioned, .twoPass⟩ = before ++ b :: after ∧
      (∀ b' ∈ before, ∀ lit' w, lit' <+: "-0b2, 7".toList → ¬b'.Spells lit' w) ∧
      b.Longest "-0b2, 7".toList lit 0 ∧
      "-0b2, 7".toList = lit ++ "b2, 7".toList) ∧
    ¬Continues ⟨.sectioned, .twoPass⟩ (Base.hexadecimal.render .upper (-48879)) 'g' ∧
      readFront (number ⟨.sectioned, .twoPass⟩)
        (String.ofList (Base.hexadecimal.render .upper (-48879) ++ ['g', '1'])) =
          .ok (-48879, ['g', '1']) := by
  have hlimit : DigitsBounded "-0b2, 7".toList := fun ds hds _ => hds.length_le.trans (by decide)
  have hread : readFront (number ⟨.sectioned, .twoPass⟩) "-0b2, 7" = .ok (0, "b2, 7".toList) := by
    decide +kernel
  have hstop : ¬Continues ⟨.sectioned, .twoPass⟩ (Base.hexadecimal.render .upper (-48879)) 'g' :=
    fun hcontinues => by
    obtain hdigit | ⟨hdecimal, -⟩ :=
      (Base.hexadecimal.spells_render .upper (-48879)).continues hcontinues
    · exact absurd hdigit (by decide)
    · exact absurd hdecimal (by decide)
  obtain ⟨hfront, hrender⟩ := number_language ⟨.sectioned, .twoPass⟩
  refine ⟨⟨hlimit, ((hfront _ hlimit).2 _ _).1 hread⟩, hstop,
    hrender .hexadecimal (by decide) .upper (-48879) ['g', '1'] (fun h => absurd h (by decide)) ?_⟩
  rintro c ⟨⟩
  exact hstop

end Assembler.Grammar
