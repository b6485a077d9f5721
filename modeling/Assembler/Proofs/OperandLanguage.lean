import Assembler.Proofs.ClosingQuotes
import Assembler.Proofs.NumberLiterals

/-! # The language of operands

The grammar of operands, written as relations between texts and what they stand for.  The readers
choose by order and never go back, so each kind of operand needs two facts: what its reader takes is
of the form (`…_finds`), and where the form stands, the readers asked before miss and its own takes
all of it (`…_reads`). -/

namespace Assembler.Grammar
open Reader
set_option autoImplicit false

variable {d : Dialect} {cs ds text rest body : List Char} {op : Operand} {n : Nat} {v : Int}
  {isDigit : Char → Bool}

/-! ## The grammar -/

def Blanks (cs : List Char) : Prop := ∀ c ∈ cs, Text.isBlank c = true

def IsName (cs : List Char) : Prop :=
  ∃ c tail, cs = c :: tail ∧ isNameStart c = true ∧ ∀ x ∈ tail, isNameChar x = true

/-- The register that a name stands for: a letter R of either case and the digits of a number below
sixteen. -/
def registerIndex? : List Char → Option Nat
  | [] => none
  | r :: ds =>
    if r ∈ ['R', 'r'] ∧ ds ≠ [] ∧ ds.all Text.isDecimal = true ∧ Text.valueOf 10 ds < 16
      then some (Text.valueOf 10 ds)
    else none

/-- The operand that a name stands for. -/
def nameOperand (cs : List Char) : Operand :=
  match registerIndex? cs with
  | some i => .register i
  | none => .direct (String.ofList cs)

/-- The characters of an operand other than a string, and the operand. -/
inductive OperandText (d : Dialect) : List Char → Operand → Prop
  | name {cs : List Char} : IsName cs → OperandText d cs (nameOperand cs)
  | relative {cs : List Char} : d.hasRelative = true → IsName cs →
      OperandText d ('@' :: cs) (.relative (String.ofList cs))
  | number {cs : List Char} {v : Int} : NumberText d cs v → OperandText d cs (.number v)
  | minusZero {r : Char} {ds : List Char} : r ∈ ['R', 'r'] → IsRun (· == '0') ds →
      OperandText d (r :: '-' :: ds) (.register 0)

theorem IsName.nameChars (h : IsName cs) : ∀ c ∈ cs, isNameChar c = true := by
  obtain ⟨c, tail, rfl, hc, htail⟩ := h
  exact List.forall_mem_cons.2 ⟨isNameChar_of_isNameStart hc, htail⟩

/-- What may follow an operand: a blank, a comma, a comment, or nothing. -/
def Follows (rest : List Char) : Prop := ∀ c ∈ rest.head?, Text.isBlank c = true ∨ c = ',' ∨ c = ';'

theorem Follows.not_nameChar (h : Follows rest) : Ends isNameChar rest := by
  intro c hc
  obtain hblank | rfl | rfl := h c hc
  · by_contra hname
    rw [Bool.not_eq_false] at hname
    rw [isBlank_of_isNameChar hname] at hblank
    cases hblank
  · rfl
  · rfl

theorem Follows.ne {x : Char} (h : Follows rest) (hx : Text.isBlank x = false) (hcomma : x ≠ ',')
    (hsemicolon : x ≠ ';') :
    ∀ c ∈ rest.head?, c ≠ x := by
  rintro c hc rfl
  obtain hblank | rfl | rfl := h c hc
  · rw [hx] at hblank
    cases hblank
  · exact hcomma rfl
  · exact hsemicolon rfl

/-! ## Names -/

theorem identifier_finds : identifier.Finds fun text a rest => a = String.ofList text ∧
    IsName text ∧ Ends isNameChar rest := by
  refine Finds.named (Finds.mono (finds_headAndRun _ _ _).map ?_)
  rintro text a rest ⟨_, rfl, rfl, hname, hrest⟩
  exact ⟨rfl, hname, hrest⟩

theorem identifier_reads (h : IsName text) (hrest : Ends isNameChar rest) :
    identifier.Reads text (String.ofList text) rest := by
  obtain ⟨c, tail, rfl, hc, htail⟩ := h
  exact Reads.named (Reads.map (reads_headAndRun hc htail hrest))

theorem identifier_misses (h : Ends isNameStart cs) : identifier.Misses cs :=
  Misses.named (Misses.map (misses_headAndRun h))

theorem blanks_finds : blanks.Finds fun text _ rest => Blanks text ∧ Ends Text.isBlank rest := by
  refine Finds.mono (Finds.bind (finds_run _) fun _ => finds_pure _) ?_
  rintro text a rest ⟨s, t, bs, rfl, ⟨rfl, hbs, hrest⟩, rfl, -⟩
  rw [List.append_nil]
  exact ⟨hbs, hrest⟩

theorem blanks_reads (h : Blanks text) (hrest : Ends Text.isBlank rest) :
    blanks.Reads text () rest :=
  Reads.bind_nil (reads_run h hrest) (reads_pure () rest)

/-! ## Registers -/

/-- The letter of a register may begin a name. -/
theorem isNameStart_of_letter {r : Char} (hr : r ∈ ['R', 'r']) : isNameStart r = true := by
  obtain rfl | rfl : r = 'R' ∨ r = 'r' := by simpa using hr
  · rfl
  · rfl

theorem registerNumber_finds : registerNumber.Finds fun text i _ => ∃ r sign ds, r ∈ ['R', 'r'] ∧
    text = r :: (signText sign ++ ds) ∧ IsRun Text.isDecimal ds ∧
    i = signed sign (Text.valueOf 10 ds) := by
  refine Finds.mono (Finds.bind (finds_oneOf _) fun _ => decimalNumber_finds) ?_
  rintro text i rest ⟨s, t, r, rfl, ⟨rfl, hr⟩, sign, ds, rfl, hds, rfl, -⟩
  exact ⟨r, sign, ds, hr, rfl, hds, rfl⟩

theorem registerNumber_reads {r : Char} (hr : r ∈ ['R', 'r']) (sign : Option Unit)
    (hds : IsRun Text.isDecimal ds) (hlimit : ds.length ≤ Text.decimalLimit)
    (hrest : Ends Text.isDecimal rest) :
    registerNumber.Reads (r :: (signText sign ++ ds)) (signed sign (Text.valueOf 10 ds)) rest :=
  Reads.bind (reads_oneOf hr _) (decimalNumber_reads sign hds hlimit hrest)

theorem registerNumber_misses (h : ∀ c ∈ cs.head?, c ∉ ['R', 'r']) : registerNumber.Misses cs :=
  Misses.bind (misses_oneOf h)

theorem register_misses (h : registerNumber.Misses cs) : register.Misses cs :=
  Misses.named (Misses.bind (Misses.barring (Misses.bind h) h))

theorem registerIndex?_eq_some_iff {i : Nat} : registerIndex? cs = some i ↔
    ∃ r ds, cs = r :: ds ∧ r ∈ ['R', 'r'] ∧ IsRun Text.isDecimal ds ∧ i = Text.valueOf 10 ds ∧
    i < 16 := by
  unfold registerIndex?
  split
  · simp
  · next r ds =>
    split
    · next h =>
      obtain ⟨hr, hne, hds, hlt⟩ := h
      refine ⟨fun hi => ?_, ?_⟩
      · obtain rfl := Option.some.inj hi
        exact ⟨r, ds, rfl, hr, ⟨hne, List.all_eq_true.1 hds⟩, rfl, hlt⟩
      · rintro ⟨r', ds', hcs, -, -, rfl, -⟩
        rw [(List.cons.inj hcs).2]
    · next h =>
      refine iff_of_false nofun ?_
      rintro ⟨r', ds', hcs, hr, hds, rfl, hlt⟩
      obtain ⟨rfl, rfl⟩ := List.cons.inj hcs
      exact h ⟨hr, hds.1, List.all_eq_true.2 hds.2, hlt⟩

theorem valueOf_eq_zero_iff (hds : ∀ c ∈ ds, Text.isDecimal c = true) :
    Text.valueOf 10 ds = 0 ↔ ∀ c ∈ ds, c = '0' := by
  induction ds using List.reverseRecOn with
  | nil => simp [Text.valueOf]
  | append_singleton ds c ih =>
    have hc := hds c (by simp)
    have hzero : Text.digitValue c = 0 ↔ c = '0' := by
      have hrange := (isDecimal_iff c).1 hc
      rw [Text.digitValue, if_pos hc, ← Char.toNat_inj]
      change c.toNat - 48 = 0 ↔ c.toNat = 48
      omega
    have hbefore := ih fun x hx => hds x (by simp [hx])
    rw [Text.valueOf_concat, Nat.add_eq_zero_iff, hzero, Nat.mul_eq_zero, or_iff_left (by decide),
      hbefore]
    simp [or_imp, forall_and]

theorem register_finds (d : Dialect) : register.Finds fun text op _ => OperandText d text op := by
  refine Finds.named
    (Finds.mono
      (Finds.bind (S := fun i text op _ => text = [] ∧ op = .register i ∧ 0 ≤ i ∧ i < 16)
        (registerNumber_finds.barring _) fun i => ?_) ?_)
  · split
    · next hi =>
      refine Finds.mono (finds_pure _) ?_
      rintro text op rest ⟨rfl, rfl⟩
      exact ⟨rfl, rfl, hi⟩
    · exact finds_expecting _
  · rintro text op rest ⟨s, t, i, rfl, ⟨r, sign, ds, hr, rfl, hds, rfl⟩, rfl, rfl, hpos, hlt⟩
    rw [List.append_nil]
    cases sign with
    | none =>
      have hindex := registerIndex?_eq_some_iff.2 ⟨r, ds, rfl, hr, hds, rfl, Int.ofNat_lt.1 hlt⟩
      have hname : IsName (r :: ds) :=
        ⟨r, ds, rfl, isNameStart_of_letter hr, fun c hc => isNameChar_of_isDecimal (hds.2 c hc)⟩
      have hread := OperandText.name (d := d) hname
      rw [nameOperand, hindex] at hread
      exact hread
    | some u =>
      have hzero : Text.valueOf 10 ds = 0 := by
        change 0 ≤ -(Text.valueOf 10 ds : Int) at hpos
        omega
      have hzeros := (valueOf_eq_zero_iff hds.2).1 hzero
      have hread :=
        OperandText.minusZero (d := d) hr ⟨hds.1, fun c hc => beq_iff_eq.2 (hzeros c hc)⟩
      simpa [signed, hzero, signText] using hread

theorem register_reads {r : Char} (hr : r ∈ ['R', 'r']) (sign : Option Unit)
    (hds : IsRun Text.isDecimal ds) (hlimit : ds.length ≤ Text.decimalLimit)
    (hrest : Ends isNameChar rest)
    (hrange : 0 ≤ signed sign (Text.valueOf 10 ds) ∧ signed sign (Text.valueOf 10 ds) < 16) :
    register.Reads (r :: (signText sign ++ ds)) (.register (signed sign (Text.valueOf 10 ds)))
      rest := by
  have hnumber :=
    registerNumber_reads hr sign hds hlimit (hrest.mono fun c => isNameChar_of_isDecimal)
  have hbar :
      (registerNumber >>= fun _ => identifier).Misses (r :: (signText sign ++ ds) ++ rest) :=
    hnumber.bind_misses (identifier_misses (hrest.mono fun c => isNameChar_of_isNameStart))
  refine Reads.named (Reads.bind_nil (hbar.barring_reads hnumber) ?_)
  rw [if_pos hrange]
  exact reads_pure _ rest

theorem register_stops {r : Char} (hr : r ∈ ['R', 'r']) (sign : Option Unit)
    (hds : IsRun Text.isDecimal ds) (hlimit : Text.decimalLimit < ds.length)
    (hrest : Ends Text.isDecimal rest) :
    register.Stops (r :: (signText sign ++ (ds ++ rest))) := by
  have hnumber : registerNumber.Stops (r :: (signText sign ++ (ds ++ rest))) :=
    Reads.bind_stops (s := [r]) (reads_oneOf hr _) (decimalNumber_stops sign hds hlimit hrest)
  exact Stops.named (Stops.bind (Stops.barring (Stops.bind hnumber)))

/-- The digits behind the letter of a register are not too many. -/
def IndexBounded (cs : List Char) : Prop :=
  ∀ r tail, cs = r :: tail → r ∈ ['R', 'r'] →
    (tail.takeWhile Text.isDecimal).length ≤ Text.decimalLimit

/-- The digits that are counted are not too many: those of a number, and those behind the letter of
a register. -/
def Limited (cs : List Char) : Prop :=
  ∀ letters sign ds back, cs = letters ++ (signText sign ++ (ds ++ back)) →
    (letters = [] ∨ ∃ r ∈ ['R', 'r'], letters = [r]) →
    (∀ c ∈ ds, Text.isDecimal c = true) → ds.length ≤ Text.decimalLimit

theorem Limited.of_append (h : Limited (cs ++ rest)) : Limited cs := by
  rintro letters sign ds back rfl hletters hds
  exact h letters sign ds (back ++ rest) (by simp) hletters hds

theorem Limited.indexBounded (h : Limited cs) : IndexBounded cs := by
  rintro r tail rfl hr
  exact h [r] none _ _ (congrArg (r :: ·) List.takeWhile_append_dropWhile.symm) (.inr ⟨r, hr, rfl⟩)
    fun c hc => List.all_eq_true.1 List.all_takeWhile c hc

theorem limited_or_stops (d : Dialect) (cs : List Char) :
    Limited cs ∨ (orElse register (numberOperand d)).Stops cs := by
  refine or_iff_not_imp_left.2 fun hlong => ?_
  unfold Limited at hlong
  push Not at hlong
  obtain ⟨letters, sign, ds, back, rfl, hletters, hds, hlimit⟩ := hlong
  obtain ⟨run, rest, hsplit, hrun, hlonger, hrest⟩ :
      ∃ run rest, ds ++ back = run ++ rest ∧ IsRun Text.isDecimal run ∧
      Text.decimalLimit < run.length ∧ Ends Text.isDecimal rest := by
    refine ⟨ds ++ back.takeWhile Text.isDecimal, back.dropWhile Text.isDecimal, ?_, ⟨?_, ?_⟩, ?_,
      ends_dropWhile _ _⟩
    · rw [List.append_assoc, List.takeWhile_append_dropWhile]
    · exact List.append_ne_nil_of_left_ne_nil (List.ne_nil_of_length_pos (by omega)) _
    · exact List.forall_mem_append.2 ⟨hds, fun c hc => List.all_eq_true.1 List.all_takeWhile c hc⟩
    · rw [List.length_append]
      omega
  rw [hsplit]
  obtain rfl | ⟨r, hr, rfl⟩ := hletters
  · have hletter : Ends isNameStart (signText sign ++ (run ++ rest)) := by
      obtain ⟨c, t, rfl⟩ := List.exists_cons_of_ne_nil hrun.1
      cases sign with
      | some u => exact ends_cons.2 rfl
      | none => exact ends_cons.2 (not_isNameStart_of_isDecimal (hrun.2 c List.mem_cons_self))
    have hmiss : register.Misses (signText sign ++ (run ++ rest)) := by
      refine register_misses (registerNumber_misses fun c hc hr => ?_)
      have hnot := hletter c hc
      rw [isNameStart_of_letter hr] at hnot
      cases hnot
    exact hmiss.orElse_stops (number_stops sign hrun hlonger hrest).map
  · exact (register_stops hr sign hrun hlonger hrest).orElse

theorem register_ne_miss {i : Nat} (h : registerIndex? cs = some i) (hrest : Ends isNameChar rest)
    (j k : Nat) (e : String) :
    register ⟨j, cs ++ rest⟩ ≠ .miss k e := by
  obtain ⟨r, ds, rfl, hr, hds, rfl, hlt⟩ := registerIndex?_eq_some_iff.1 h
  obtain hlimit | hlimit := Nat.lt_or_ge Text.decimalLimit ds.length
  · obtain ⟨x, hstop⟩ :=
      register_stops hr none hds hlimit (hrest.mono fun c => isNameChar_of_isDecimal) j
    change register ⟨j, r :: ds ++ rest⟩ = _ at hstop
    rw [hstop]
    nofun
  · have hread :=
      register_reads hr none hds hlimit hrest ⟨Int.natCast_nonneg _, Int.ofNat_lt.2 hlt⟩ j
    change register ⟨j, r :: ds ++ rest⟩ = _ at hread
    rw [hread]
    nofun

/-- A name that is no register: the letter is another one, or no digits follow, or their number is
too large, or the name goes on behind them. -/
theorem register_misses_name (hname : IsName cs) (hnone : registerIndex? cs = none)
    (hrest : Follows rest) (hlimit : IndexBounded cs) : register.Misses (cs ++ rest) := by
  obtain ⟨r, tail, rfl, hstart, htail⟩ := hname
  by_cases hr : r ∈ ['R', 'r']
  swap
  · refine register_misses (registerNumber_misses ?_)
    rintro c hc
    obtain rfl : r = c := by simpa using hc
    exact hr
  obtain ⟨ds, more, htd, hds, hmore, hbound⟩ :
      ∃ ds more, tail = ds ++ more ∧ (∀ c ∈ ds, Text.isDecimal c = true) ∧
      Ends Text.isDecimal more ∧ ds.length ≤ Text.decimalLimit :=
    ⟨_, _, (List.takeWhile_append_dropWhile (p := Text.isDecimal)).symm,
      fun c hc => List.all_eq_true.1 List.all_takeWhile c hc, ends_dropWhile _ _,
      hlimit r tail rfl hr⟩
  subst htd
  cases more with
  | nil =>
    rw [List.append_nil] at hnone ⊢
    have hends := hrest.not_nameChar
    by_cases hne : ds = []
    · subst hne
      exact register_misses (Reads.bind_misses (reads_oneOf hr rest) (decimalNumber_misses
        (sign_reads none (hrest.ne rfl (by decide) (by decide)))
          (hends.mono fun c => isNameChar_of_isDecimal)))
    · have hrun : IsRun Text.isDecimal ds := ⟨hne, hds⟩
      have hnumber :=
        registerNumber_reads hr none hrun hbound (hends.mono fun c => isNameChar_of_isDecimal)
      have hlarge :
          ¬ (0 ≤ signed none (Text.valueOf 10 ds) ∧ signed none (Text.valueOf 10 ds) < 16) := by
        rintro ⟨-, hlt⟩
        rw [registerIndex?_eq_some_iff.2 ⟨r, ds, rfl, hr, hrun, rfl, Int.ofNat_lt.1 hlt⟩] at hnone
        cases hnone
      have hbar : (registerNumber >>= fun _ => identifier).Misses (r :: ds ++ rest) :=
        hnumber.bind_misses (identifier_misses (hends.mono fun c => isNameChar_of_isNameStart))
      refine Misses.named (Reads.bind_misses (hbar.barring_reads hnumber) ?_)
      rw [if_neg hlarge]
      exact misses_expecting _ rest
  | cons c more =>
    have hc : Text.isDecimal c = false := ends_cons.1 hmore
    have hcname : isNameChar c = true := htail c (by simp)
    have hcstart : isNameStart c = true :=
      ((isNameChar_iff c).1 hcname).resolve_right (by rw [hc]; decide)
    by_cases hne : ds = []
    · subst hne
      refine register_misses (Reads.bind_misses (s := [r]) (reads_oneOf hr (c :: more ++ rest))
        (decimalNumber_misses (sign_reads none ?_) (ends_cons.2 hc)))
      intro x hx
      obtain rfl : c = x := by simpa using hx
      exact ne_of_isNameChar hcname rfl
    · have hends : Ends Text.isDecimal ((c :: more) ++ rest) := ends_cons.2 hc
      have hnumber := registerNumber_reads hr none ⟨hne, hds⟩ hbound hends
      have hmore : IsName (c :: more) := ⟨c, more, rfl, hcstart, fun x hx => htail x (by simp [hx])⟩
      have hbar :=
        Reads.bind (f := fun _ => identifier) hnumber (identifier_reads hmore hrest.not_nameChar)
      have hmiss :
          (barring registerNumber (registerNumber >>= fun _ => identifier)).Misses
            (r :: (ds ++ (c :: more)) ++ rest) :=
        hbar.barring_misses
      exact Misses.named (Misses.bind hmiss)

/-! ## Strings -/

/-- The characters of a string, the operand and what follows it: a string of characters takes all
that follows, and is what stands before its closing quote. -/
inductive StringText : List Char → Operand → List Char → Prop
  | hex {q : Char} {ds rest : List Char} : q ∈ quotes → IsRun Text.isHexadecimal ds →
      StringText ('x' :: q :: ds ++ [q]) (.hex (String.ofList ds)) rest
  | chars {q : Char} {all back : List Char} : q ∈ quotes → closedChars q all.reverse = some back →
      StringText ('c' :: q :: all) (.chars (String.ofList back.reverse)) []

theorem eq_of_mem_quotes {q : Char} (h : q ∈ quotes) :
    q = Text.singleQuote ∨ q = Text.doubleQuote := by simpa [quotes] using h

theorem hexString_finds : hexString.Finds StringText := by
  refine Finds.named
    (Finds.mono (Finds.bind (finds_literal "x") fun _ => Finds.bind (finds_oneOf quotes) fun q =>
    Finds.bind ((finds_run1 _ _).endingWith (finds_literal (String.singleton q))) fun ds =>
      finds_pure _) ?_)
  rintro text op rest ⟨s₁, t₁, _, rfl, rfl, s₂, t₂, q, rfl, ⟨rfl, hq⟩, s₃, t₃, ds, rfl,
    ⟨s₄, t₄, _, rfl, ⟨rfl, hne, hds, -⟩, rfl⟩, rfl, rfl⟩
  have hread : StringText _ _ rest := .hex hq ⟨hne, hds⟩
  simpa using hread

theorem hexString_reads {q : Char} (hq : q ∈ quotes) (hds : IsRun Text.isHexadecimal ds)
    (rest : List Char) :
    hexString.Reads ('x' :: q :: ds ++ [q]) (.hex (String.ofList ds)) rest := by
  have hquote : Text.isHexadecimal q = false := by obtain rfl | rfl := eq_of_mem_quotes hq <;> rfl
  have hrun : (run1 Text.isHexadecimal "[0-9A-Fa-f]+").Reads ds ds ([q] ++ rest) :=
    reads_run1 _ hds.1 hds.2 (ends_cons.2 hquote)
  have hclose : (literal (String.singleton q)).Reads [q] () rest := by
    have hread := reads_literal (String.singleton q) rest
    rwa [String.toList_singleton] at hread
  exact Reads.named
    (Reads.bind (s := ['x']) (reads_literal "x" _)
      (Reads.bind (s := [q]) (reads_oneOf hq _)
        (Reads.bind_nil (hrun.endingWith hclose) (reads_pure _ rest))))

theorem charString_finds : charString.Finds StringText := by
  refine Finds.named
    (Finds.mono (Finds.bind (finds_literal "c") fun _ => Finds.bind (finds_oneOf quotes) fun q =>
      Finds.bind (S := fun all text op _ => text = [] ∧ ∃ back,
        closedChars q all.reverse = some back ∧
        op = .chars (String.ofList back.reverse)) (finds_run _) fun all => ?_) ?_)
  · rw [closeString_eq]
    split
    · next back hclosed =>
      refine Finds.mono (finds_pure _) ?_
      rintro text op rest ⟨rfl, rfl⟩
      exact ⟨rfl, back, hclosed, rfl⟩
    · exact finds_expecting _
  rintro text op rest ⟨s₁, t₁, _, rfl, rfl, s₂, t₂, q, rfl, ⟨rfl, hq⟩, all, t₃, _, rfl,
    ⟨rfl, -, hrest⟩, rfl, back, hclosed, rfl⟩
  have hnil : rest = [] := by
    cases rest with
    | nil => rfl
    | cons c rest => cases ends_cons.1 hrest
  subst hnil
  have hread := StringText.chars hq hclosed
  simpa using hread

/-- A string of characters takes the whole rest of the text. -/
theorem charString_reads {q : Char} (hq : q ∈ quotes) {all back : List Char}
    (h : closedChars q all.reverse = some back) :
    charString.Reads ('c' :: q :: all) (.chars (String.ofList back.reverse)) [] := by
  have hall : (run fun _ => true).Reads all all [] := reads_run (fun _ _ => rfl) (ends_nil _)
  refine Reads.named
    (Reads.bind (s := ['c']) (reads_literal "c" _)
      (Reads.bind (s := [q]) (reads_oneOf hq _) (Reads.bind_nil hall ?_)))
  rw [closeString_eq, h]
  exact reads_pure _ []

/-- A string that does not close is missed. -/
theorem charString_misses {q : Char} (hq : q ∈ quotes) {all : List Char}
    (h : closedChars q all.reverse = none) :
    charString.Misses ('c' :: q :: all) := by
  have hall : (run fun _ => true).Reads all all [] := reads_run (fun _ _ => rfl) (ends_nil _)
  refine Misses.named
    (Reads.bind_misses (s := ['c']) (reads_literal "c" _)
      (Reads.bind_misses (s := [q]) (reads_oneOf hq _) ?_))
  rw [← List.append_nil all]
  refine Reads.bind_misses hall ?_
  rw [closeString_eq, h]
  exact misses_expecting _ []

/-- A string is missed where no quote follows its letter. -/
theorem quoted_misses {α : Type} {mark : String} {f : Char → Reader α}
    (h : ∀ t, cs = mark.toList ++ t → ∀ c ∈ t.head?, c ∉ quotes) :
    (literal mark >>= fun _ => oneOf quotes >>= f).Misses cs := by
  by_cases hmark : mark.toList <+: cs
  · obtain ⟨t, rfl⟩ := hmark
    exact Reads.bind_misses (reads_literal mark t) (Misses.bind (misses_oneOf (h t rfl)))
  · exact Misses.bind (misses_literal hmark)

theorem not_quote_of_name (hname : IsName cs) (hrest : Follows rest) {m : Char} {t : List Char}
    (h : cs ++ rest = m :: t) :
    ∀ c ∈ t.head?, c ∉ quotes := by
  obtain ⟨r, tail, rfl, -, htail⟩ := hname
  obtain ⟨-, rfl⟩ := List.cons.inj h
  intro c hc hquote
  have hnot : isNameChar c = false ∧ Text.isBlank c = false ∧ c ≠ ',' ∧ c ≠ ';' := by
    obtain rfl | rfl := eq_of_mem_quotes hquote <;> decide
  cases tail with
  | nil =>
    obtain hblank | rfl | rfl := hrest c hc
    · rw [hnot.2.1] at hblank
      cases hblank
    · exact hnot.2.2.1 rfl
    · exact hnot.2.2.2 rfl
  | cons x tail =>
    obtain rfl : x = c := by simpa using hc
    rw [htail x (by simp)] at hnot
    cases hnot.1

/-! ## Operands -/

/-- An operand as it is found before what follows. -/
def OperandFound (d : Dialect) (text : List Char) (op : Operand) (rest : List Char) : Prop :=
  (OperandText d text op ∧ Limited text) ∨ StringText text op rest

theorem operand_stops (h : (orElse register (numberOperand d)).Stops cs) :
    (operand d).Stops cs := by
  unfold operand
  apply Stops.named
  split
  · exact h.orElse.orElse.orElse.orElse
  · exact h.orElse.orElse.orElse

theorem operand_limited {c : Cursor} {next : Cursor} (h : operand d c = .done op next) :
    Limited c.rest := by
  refine (limited_or_stops d c.rest).resolve_right fun hstops => ?_
  obtain ⟨x, hstop⟩ := operand_stops hstops c.index
  cases h.symm.trans hstop

theorem operand_finds (d : Dialect) : (operand d).Finds (OperandFound d) := by
  have hregister :=
    Finds.mono (register_finds d) fun text op rest h => Or.inl (b := StringText text op rest) h
  have hnumber : (numberOperand d).Finds fun text op rest => OperandText d text op ∨
      StringText text op rest := by
    refine Finds.mono (number_finds d).map ?_
    rintro text op rest ⟨v, rfl, hv⟩
    exact .inl (.number hv)
  have hstrings :=
    (hregister.orElse hnumber).orElse (Finds.mono hexString_finds fun text op rest h => .inr h)
      |>.orElse (Finds.mono charString_finds fun text op rest h => .inr h)
  have hname : ∀ c op next, (∃ j e, register c = .miss j e) →
      directName (directTitle d) c = .done op next →
      ∃ text, c.rest = text ++ next.rest ∧
      (OperandText d text op ∨ StringText text op next.rest) := by
    rintro ⟨i, cs⟩ op next ⟨j, e, hmiss⟩ hdone
    obtain ⟨text, hcs, name, rfl, rfl, hname, hrest⟩ := identifier_finds.map.named _ _ _ hdone
    have hnone : registerIndex? text = none := by
      cases hindex : registerIndex? text with
      | none => rfl
      | some k =>
        dsimp only at hcs
        subst hcs
        exact absurd hmiss (register_ne_miss hindex hrest i j e)
    have hread := OperandText.name (d := d) hname
    rw [nameOperand, hnone] at hread
    exact ⟨text, hcs, .inl hread⟩
  have hkinds : (operand d).Finds fun text op rest => OperandText d text op ∨
      StringText text op rest := by
    unfold operand
    apply Finds.named
    split
    · next hd =>
      have hrelative : relativeName.Finds fun text op rest => OperandText d text op ∨
          StringText text op rest := by
        refine Finds.named
          (Finds.mono (Finds.bind (finds_literal "@") fun _ => identifier_finds.map) ?_)
        rintro text op rest ⟨s, t, _, rfl, rfl, name, rfl, rfl, hname, -⟩
        exact .inl (.relative hd hname)
      refine (hstrings.orElse hrelative).orElse_of_miss fun c op next hmiss => hname c op next ?_
      obtain ⟨i, e, hmiss⟩ := hmiss
      obtain ⟨⟨i, e, hmiss⟩, -⟩ := orElse_eq_miss hmiss
      obtain ⟨⟨i, e, hmiss⟩, -⟩ := orElse_eq_miss hmiss
      obtain ⟨⟨i, e, hmiss⟩, -⟩ := orElse_eq_miss hmiss
      exact (orElse_eq_miss hmiss).1
    · refine hstrings.orElse_of_miss fun c op next hmiss => hname c op next ?_
      obtain ⟨i, e, hmiss⟩ := hmiss
      obtain ⟨⟨i, e, hmiss⟩, -⟩ := orElse_eq_miss hmiss
      obtain ⟨⟨i, e, hmiss⟩, -⟩ := orElse_eq_miss hmiss
      exact (orElse_eq_miss hmiss).1
  intro c op next hdone
  obtain ⟨text, htext, hkind⟩ := hkinds c op next hdone
  have hbound := operand_limited hdone
  rw [htext] at hbound
  exact ⟨text, htext, hkind.imp_left fun h => ⟨h, hbound.of_append⟩⟩

/-- The characters that operands begin with. -/
def isOperandStart (c : Char) : Bool := isNameStart c || Text.isDecimal c || c == '-' || c == '@'

theorem lettered_misses (h : Ends isNameStart cs) (title : String) :
    register.Misses cs ∧ hexString.Misses cs ∧ charString.Misses cs ∧
      (directName title).Misses cs := by
  have hletter : ∀ {c : Char} {t : List Char}, isNameStart c = true → cs ≠ c :: t := by
    rintro c t hc rfl
    rw [ends_cons, hc] at h
    cases h
  refine ⟨register_misses (registerNumber_misses ?_),
    Misses.named (quoted_misses fun t ht => absurd ht (hletter rfl)),
    Misses.named (quoted_misses fun t ht => absurd ht (hletter rfl)),
    Misses.named (Misses.map (identifier_misses h))⟩
  intro c hc hr
  have hnot := h c hc
  rw [isNameStart_of_letter hr] at hnot
  cases hnot

theorem relativeName_misses (h : ∀ c ∈ cs.head?, c ≠ '@') : relativeName.Misses cs := by
  refine Misses.named (Misses.bind (misses_literal ?_))
  rintro ⟨t, rfl⟩
  exact h '@' rfl rfl

theorem operand_misses (h : Ends isOperandStart cs) : (operand d).Misses cs := by
  have hstart : ∀ c ∈ cs.head?, ((isNameStart c = false ∧ Text.isDecimal c = false) ∧ c ≠ '-') ∧
      c ≠ '@' := by
    intro c hc
    simpa [isOperandStart] using h c hc
  obtain ⟨hregister, hhex, hchars, hdirect⟩ :=
    lettered_misses (fun c hc => (hstart c hc).1.1.1) (directTitle d)
  have hnumber : (numberOperand d).Misses cs :=
    Misses.map (number_misses d (fun c hc => (hstart c hc).1.2) fun c hc => (hstart c hc).1.1.2)
  have hconstants := ((hregister.orElse hnumber).orElse hhex).orElse hchars
  unfold operand
  apply Misses.named
  split
  · exact (hconstants.orElse (relativeName_misses fun c hc => (hstart c hc).2)).orElse hdirect
  · exact hconstants.orElse hdirect

theorem operand_reads_constant
    (h : (orElse (orElse (orElse register (numberOperand d)) hexString) charString).Reads cs
      op rest) :
    (operand d).Reads cs op rest := by
  unfold operand
  apply Reads.named
  split
  · exact h.orElse.orElse
  · exact h.orElse

/-- The letter of a string is that of no register, and no number begins with it. -/
theorem string_misses {m : Char} (hm : m = 'x' ∨ m = 'c') (cs : List Char) :
    (orElse register (numberOperand d)).Misses (m :: cs) := by
  have hregister : register.Misses (m :: cs) := by
    refine register_misses (registerNumber_misses ?_)
    obtain rfl | rfl := hm <;> simp
  have hnumber : (numberOperand d).Misses (m :: cs) := by
    refine Misses.map (number_misses d ?_ (ends_cons.2 ?_))
    · obtain rfl | rfl := hm <;> simp
    · obtain rfl | rfl := hm <;> rfl
  exact hregister.orElse hnumber

theorem closed_operand_reads {q : Char} (hq : q ∈ quotes) {all back : List Char}
    (h : closedChars q all.reverse = some back) :
    (operand d).Reads ('c' :: q :: all) (.chars (String.ofList back.reverse)) [] := by
  have hhex : hexString.Misses ('c' :: q :: all ++ []) :=
    Misses.named (quoted_misses fun t ht => absurd (List.cons.inj ht).1 (by decide))
  exact operand_reads_constant
    (((string_misses (.inr rfl) _).orElse hhex).orElse_reads (charString_reads hq h))

/-- The letter of a string that does not close is read as a name. -/
theorem unclosed_operand_reads {q : Char} (hq : q ∈ quotes) {all : List Char}
    (h : closedChars q all.reverse = none) :
    (operand d).Reads ['c'] (.direct "c") (q :: all) := by
  have hhex : hexString.Misses ('c' :: q :: all) :=
    Misses.named (quoted_misses fun t ht => absurd (List.cons.inj ht).1 (by decide))
  have hconstants :=
    ((string_misses (d := d) (.inr rfl) (q :: all)).orElse hhex).orElse (charString_misses hq h)
  have hends : Ends isNameChar (q :: all) := by
    obtain rfl | rfl := eq_of_mem_quotes hq <;> exact ends_cons.2 rfl
  have hread : (directName (directTitle d)).Reads ['c'] (.direct "c") (q :: all) :=
    Reads.named (identifier_reads ⟨'c', [], rfl, rfl, nofun⟩ hends).map
  unfold operand
  apply Reads.named
  split
  · exact (hconstants.orElse (relativeName_misses (by simp))).orElse_reads hread
  · exact hconstants.orElse_reads hread

theorem NumberText.head (h : NumberText d cs v) :
    ∃ c t, cs = c :: t ∧ (Text.isDecimal c = true ∨ c = '-') := by
  obtain ⟨sign, hcs⟩ := h
  cases sign with
  | some u => exact ⟨'-', _, rfl, .inr rfl⟩
  | none =>
    cases hcs with
    | decimal hds =>
      obtain ⟨c, t, rfl⟩ := List.exists_cons_of_ne_nil hds.1
      exact ⟨c, t, rfl, .inl (hds.2 c List.mem_cons_self)⟩
    | _ => exact ⟨'0', _, rfl, .inl rfl⟩

theorem number_operand_reads (sign : Option Unit) (h : UnsignedText d cs n)
    (hrest : Ends isNameChar rest)
    (hlimit : (∀ c ∈ cs, Text.isDecimal c = true) → cs.length ≤ Text.decimalLimit) :
    (operand d).Reads (signText sign ++ cs) (.number (signed sign n)) rest := by
  obtain ⟨c, t, hcs, hhead⟩ := (NumberText.mk sign h).head
  have hletter : Ends isNameStart (signText sign ++ cs ++ rest) := by
    rw [hcs, List.cons_append, ends_cons]
    obtain hc | rfl := hhead
    · exact not_isNameStart_of_isDecimal hc
    · rfl
  have hregister := (lettered_misses hletter "").1
  exact operand_reads_constant
    (hregister.orElse_reads (number_reads sign h hrest hlimit).map).orElse.orElse

/-- A name is read as the operand it stands for: all other readers miss it, except that of
registers. -/
theorem name_operand_reads (hname : IsName cs) (hrest : Follows rest) (hlimit : IndexBounded cs) :
    (operand d).Reads cs (nameOperand cs) rest := by
  have hends := hrest.not_nameChar
  cases hindex : registerIndex? cs with
  | some i =>
    obtain ⟨r, ds, rfl, hr, hds, rfl, hlt⟩ := registerIndex?_eq_some_iff.1 hindex
    have hbound := hlimit r ds rfl hr
    rw [List.takeWhile_eq_self_iff.2 hds.2] at hbound
    have hread := register_reads hr none hds hbound hends ⟨Int.natCast_nonneg _, Int.ofNat_lt.2 hlt⟩
    rw [nameOperand, hindex]
    exact operand_reads_constant hread.orElse.orElse.orElse
  | none =>
    have hregister := register_misses_name hname hindex hrest hlimit
    have hhex : hexString.Misses (cs ++ rest) :=
      Misses.named (quoted_misses fun t ht => not_quote_of_name hname hrest ht)
    have hchars : charString.Misses (cs ++ rest) :=
      Misses.named (quoted_misses fun t ht => not_quote_of_name hname hrest ht)
    have hread : (directName (directTitle d)).Reads cs (.direct (String.ofList cs)) rest :=
      Reads.named (identifier_reads hname hends).map
    obtain ⟨c, tail, rfl, hc, -⟩ := hname
    have hne : ∀ {x : Char}, isNameChar x = false → ∀ y ∈ (c :: tail ++ rest).head?, y ≠ x := by
      intro x hx y hy
      obtain rfl : c = y := by simpa using hy
      exact ne_of_isNameChar (isNameChar_of_isNameStart hc) hx
    have hnumber : (numberOperand d).Misses (c :: tail ++ rest) :=
      Misses.map (number_misses d (hne rfl) (ends_cons.2 (not_isDecimal_of_isNameStart hc)))
    have hconstants := ((hregister.orElse hnumber).orElse hhex).orElse hchars
    rw [nameOperand, hindex]
    unfold operand
    apply Reads.named
    split
    · exact (hconstants.orElse (relativeName_misses (hne rfl))).orElse_reads hread
    · exact hconstants.orElse_reads hread

/-- No run of decimal digits is longer than a decimal number may be. -/
def DigitsBounded (cs : List Char) : Prop :=
  ∀ ds, ds <:+: cs → (∀ c ∈ ds, Text.isDecimal c = true) → ds.length ≤ Text.decimalLimit

theorem DigitsBounded.of_infix (h : DigitsBounded cs) (hsub : text <:+: cs) : DigitsBounded text :=
  fun ds hds hall => h ds (hds.trans hsub) hall

theorem DigitsBounded.limited (h : DigitsBounded cs) : Limited cs := by
  rintro letters sign ds back rfl - hds
  exact h ds ⟨letters ++ signText sign, back, by simp⟩ hds

theorem operand_reads (h : OperandText d cs op) (hrest : Follows rest) (hlimit : Limited cs) :
    (operand d).Reads cs op rest := by
  have hends := hrest.not_nameChar
  cases h with
  | name hname => exact name_operand_reads hname hrest hlimit.indexBounded
  | number h =>
    obtain ⟨sign, hcs⟩ := h
    exact number_operand_reads sign hcs hends fun hds =>
      hlimit [] sign _ [] (by simp) (.inl rfl) hds
  | @minusZero r ds hr hds =>
    have hdecimal : IsRun Text.isDecimal ds :=
      ⟨hds.1, fun c hc => by rw [beq_iff_eq.1 (hds.2 c hc)]; rfl⟩
    have hzero : Text.valueOf 10 ds = 0 :=
      (valueOf_eq_zero_iff hdecimal.2).2 fun c hc => beq_iff_eq.1 (hds.2 c hc)
    have hlength := hlimit [r] (some ()) ds [] (by simp [signText]) (.inr ⟨r, hr, rfl⟩) hdecimal.2
    have hread := register_reads hr (some ()) hdecimal hlength hends (by rw [hzero]; decide)
    rw [hzero] at hread
    exact operand_reads_constant hread.orElse.orElse.orElse
  | @relative name hd hname =>
    have hletter : Ends isNameStart ('@' :: name ++ rest) := ends_cons.2 rfl
    obtain ⟨hregister, hhex, hchars, -⟩ := lettered_misses hletter ""
    have hnumber : (numberOperand d).Misses ('@' :: name ++ rest) :=
      Misses.map (number_misses d (by simp) (ends_cons.2 rfl))
    have hread : relativeName.Reads ('@' :: name) (.relative (String.ofList name)) rest :=
      Reads.named (Reads.bind (s := ['@']) (reads_literal "@" _) (identifier_reads hname hends).map)
    unfold operand
    apply Reads.named
    rw [if_pos hd]
    exact ((((hregister.orElse hnumber).orElse hhex).orElse hchars).orElse_reads hread).orElse

theorem OperandText.head (h : OperandText d cs op) :
    ∃ c t, cs = c :: t ∧ isOperandStart c = true := by
  cases h with
  | name hname =>
    obtain ⟨c, t, rfl, hc, -⟩ := hname
    exact ⟨c, t, rfl, by simp [isOperandStart, hc]⟩
  | relative => exact ⟨'@', _, rfl, rfl⟩
  | number hv =>
    obtain ⟨c, t, rfl, hc⟩ := hv.head
    exact ⟨c, t, rfl, by obtain hc | hc := hc <;> simp [isOperandStart, hc]⟩
  | minusZero hr => exact ⟨_, _, rfl, by simp [isOperandStart, isNameStart_of_letter hr]⟩

end Assembler.Grammar
