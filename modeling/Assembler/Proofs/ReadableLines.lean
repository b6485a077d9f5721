import Assembler.Proofs.NumberLanguage
import Assembler.Proofs.RereadLines

/-! # Which lines can be read

The lines that come out of a source text have names for labels and mnemonics, registers from 0 to
15, hexadecimal strings with digits only, a string of characters at the end only, and direct names
that are no registers (`WellRead`).  There is no more to know of them: each line of this kind is
read from some text (`exists_line_text`), so that they are exactly the lines that come out of texts
(`exists_parse_iff_wellRead`). -/

namespace Assembler
set_option autoImplicit false

theorem Reader.Items.exists_of_mem {α : Type} {R : List Char → α → List Char → Prop}
    {S : List Char → List Char → Prop} {text rest : List Char} {as : List α}
    (h : Items R S text as rest) : ∀ a ∈ as, ∃ text rest, R text a rest := by
  induction h with
  | nil => simp
  | cons _ hread _ ih => exact List.forall_mem_cons.2 ⟨⟨_, _, hread⟩, ih⟩

namespace Grammar
open Reader

variable {d : Dialect} {text rest : List Char} {op : Operand} {ops : List Operand} {l : Line}

/-! ## Relative names -/

theorem OperandFound.hasRelative {x : String} (h : OperandFound d text (.relative x) rest) :
    d.hasRelative = true := by
  generalize hop : Operand.relative x = op at h
  obtain ⟨h, -⟩ | h := h
  · cases h with
    | name =>
      unfold nameOperand at hop
      split at hop <;> cases hop
    | relative hd => exact hd
    | number => cases hop
    | minusZero => cases hop
  · cases h <;> cases hop

/-- Relative names are read in dialects that have them. -/
theorem LineFound.hasRelative (h : LineFound d text l rest) {x : String}
    (hx : .relative x ∈ l.operands) : d.hasRelative = true := by
  obtain ⟨-, -, -, ⟨-, -, -, -, hops⟩, -, -, -⟩ := h
  cases hops with
  | none => cases hx
  | some hop hmore =>
    obtain heq | hx := List.mem_cons.1 hx
    · rw [← heq] at hop
      exact hop.hasRelative
    · obtain ⟨_, _, hfound⟩ := hmore.exists_of_mem _ hx
      exact hfound.hasRelative

/-! ## A text for every line -/

theorem limited_relative (cs : List Char) : Limited ('@' :: cs) := by
  rintro letters sign ds back heq (rfl | ⟨r, hr, rfl⟩) hds
  · cases sign with
    | some u => cases (List.cons.inj heq).1
    | none =>
      cases ds with
      | nil => exact Nat.zero_le _
      | cons c ds =>
        rw [← (List.cons.inj heq).1] at hds
        cases hds '@' List.mem_cons_self
  · obtain rfl := (List.cons.inj heq).1
    cases List.mem_cons.1 hr with
    | inl h => cases h
    | inr h => cases List.mem_singleton.1 h

theorem register_name {i : Int} (h0 : 0 ≤ i) (h16 : i < 16) :
    IsName ('R' :: Nat.toDigits 10 i.toNat) ∧
      nameOperand ('R' :: Nat.toDigits 10 i.toNat) = .register i ∧
      IndexBounded ('R' :: Nat.toDigits 10 i.toNat) := by
  obtain ⟨hrun, hvalue⟩ := digits_decimal i.toNat
  have hindex : registerIndex? ('R' :: Nat.toDigits 10 i.toNat) = some i.toNat :=
    registerIndex?_eq_some_iff.2 ⟨'R', _, rfl, by simp, hrun, hvalue.symm, by omega⟩
  refine ⟨⟨'R', _, rfl, rfl, fun c hc => isNameChar_of_isDecimal (hrun.2 c hc)⟩, ?_,
    fun r tail htail _ => ?_⟩
  · rw [nameOperand, hindex]
    simp [h0]
  · obtain ⟨-, rfl⟩ := List.cons.inj htail
    have hlength : (Nat.toDigits 10 i.toNat).length ≤ 2 :=
      (Nat.length_toDigits_le_iff (by decide) (by decide)).2 (by omega)
    exact (List.takeWhile_prefix _).length_le.trans (hlength.trans (by decide))

theorem exists_operand_text (h : AsRead op)
    (hrelative : ∀ x, op = .relative x → d.hasRelative = true) :
    ∃ cs, (∀ rest, Ends Text.isBlank (cs ++ rest)) ∧ '\n' ∉ cs ∧
      ∀ rest, Follows rest → (op.kind = .chars → rest = []) → (operand d).Reads cs op rest := by
  have hwritten : reread op = op → (∀ v, op ≠ .number v) → (∀ x, op ≠ .relative x) →
      ∃ cs, (∀ rest, Ends Text.isBlank (cs ++ rest)) ∧ '\n' ∉ cs ∧
        ∀ rest, Follows rest → (op.kind = .chars → rest = []) → (operand d).Reads cs op rest := by
    intro hsame hnumber hname
    refine ⟨op.text.toList, fun rest => (text_shape h rest).1, (text_shape h []).2,
      fun rest hrest hlast => ?_⟩
    have hread := text_reads (d := d) h (fun v hv => absurd hv (hnumber v)) hname hrest hlast
    rwa [hsame] at hread
  have hnewline : ∀ {cs : List Char}, (∀ c ∈ cs, isNameChar c = true) → '\n' ∉ cs :=
    fun hcs hmem => by cases hcs _ hmem
  cases h with
  | direct => exact hwritten rfl nofun nofun
  | hex => exact hwritten rfl nofun nofun
  | chars => exact hwritten rfl nofun nofun
  | @relative cs hname =>
    have htext : OperandText d ('@' :: cs) _ := .relative (hrelative _ rfl) hname
    refine ⟨'@' :: cs, htext.ends_blank, by simp [hnewline hname.nameChars], fun rest hrest _ => ?_⟩
    exact operand_reads htext hrest (limited_relative cs)
  | number v =>
    have hnumber : NumberText d (Base.hexadecimal.render .lower v) v :=
      numberText_iff.2 ⟨.hexadecimal, mem_bases.2 (by simp), Base.spells_render _ _ _⟩
    have hshort := Base.hexadecimal.not_overlong_render .lower (n := v) nofun
    refine ⟨_, (OperandText.number hnumber).ends_blank, fun hmem => ?_, fun rest hrest _ => ?_⟩
    · obtain ⟨c, t, hcs, hc⟩ := hnumber.head
      have htail := hnumber.nameChars
      rw [hcs] at hmem htail
      obtain rfl | hmem := List.mem_cons.1 hmem
      · obtain hc | hc := hc <;> cases hc
      · exact hnewline htail hmem
    · generalize Base.hexadecimal.render .lower v = cs at hnumber hshort ⊢
      obtain ⟨sign, hcs⟩ := hnumber
      refine number_operand_reads sign hcs hrest.not_nameChar fun hds => ?_
      by_contra hlong
      exact hshort ⟨sign, _, rfl, hds, Nat.not_le.1 hlong⟩
  | register h0 h16 =>
    obtain ⟨hname, hregister, hbound⟩ := register_name h0 h16
    refine ⟨_, (OperandText.name (d := d) hname).ends_blank, hnewline hname.nameChars,
      fun rest hrest _ => ?_⟩
    rw [← hregister]
    exact name_operand_reads hname hrest hbound

theorem exists_items (h : AllAsRead ops)
    (hrelative : ∀ x, .relative x ∈ ops → d.hasRelative = true) :
    ∃ text, Items (operand d).Reads (fun s t => s ≠ [] ∧ ∃ u, separator.Reads s u t) text ops [] ∧
      Follows text ∧ '\n' ∉ text ∧
      (ops = [] → text = []) := by
  induction h with
  | nil => exact ⟨[], .nil [], by simp [Follows], List.not_mem_nil, fun _ => rfl⟩
  | @cons op ops hop hlast hops ih =>
    obtain ⟨more, hitems, hfollows, hmore, hnil⟩ :=
      ih fun x hx => hrelative x (List.mem_cons_of_mem _ hx)
    obtain ⟨cs, hblank, hcs, hread⟩ :=
      exists_operand_text hop fun x hx => hrelative x (hx ▸ List.mem_cons_self)
    have hseparator := separator_reads blank_space (hblank (more ++ []))
    refine ⟨[',', ' '] ++ cs ++ more,
      .cons ⟨by simp, (), by simpa using hseparator⟩ (hread _ (by simpa using hfollows) ?_) hitems,
      ?_, by simp [hcs, hmore], by simp⟩
    · intro hchars
      rw [hnil (hlast hchars)]
      rfl
    · intro c hc
      obtain rfl : ',' = c := by simpa using hc
      exact .inr (.inl rfl)

theorem exists_operands_text (h : AllAsRead ops)
    (hrelative : ∀ x, .relative x ∈ ops → d.hasRelative = true) :
    ∃ cs, (separated (operand d) separator).Reads cs ops [] ∧ Ends Text.isBlank cs ∧ '\n' ∉ cs := by
  cases h with
  | nil => exact ⟨[], Misses.separated (operand_misses (ends_nil _)), ends_nil _, List.not_mem_nil⟩
  | @cons op ops hop hlast hops =>
    obtain ⟨more, hitems, hfollows, hmore, hnil⟩ :=
      exists_items hops fun x hx => hrelative x (List.mem_cons_of_mem _ hx)
    obtain ⟨cs, hblank, hcs, hread⟩ :=
      exists_operand_text hop fun x hx => hrelative x (hx ▸ List.mem_cons_self)
    have hfirst : (operand d).Reads cs op (more ++ []) := by
      rw [List.append_nil]
      exact hread more hfollows fun hchars => hnil (hlast hchars)
    exact ⟨cs ++ more, reads_separated hfirst hitems (.inl (separator_misses (by simp))),
      hblank more, List.not_mem_append hcs hmore⟩

/-- Every line of the kind that is read has a text. -/
theorem exists_line_text (h : LineAsRead l)
    (hrelative : ∀ x, .relative x ∈ l.operands → d.hasRelative = true) :
    ∃ cs, '\n' ∉ cs ∧ (line d).Reads cs (some l) [] := by
  obtain ⟨name, b, hlab, hb, hfront, -⟩ := line_text h
  obtain ⟨cs, hops, hblank, hcs⟩ := exists_operands_text (d := d) h.operands hrelative
  have hmnemonic : '\n' ∉ l.mnemonic.toList := fun hmem => by cases h.mnemonic.nameChars _ hmem
  have hends : Ends isNameChar ([' '] ++ cs ++ ([] ++ [])) := ends_cons.2 rfl
  have hread :=
    line_reads blanks_nil hlab hb h.mnemonic blank_space hends (by simp)
      (by simpa using hblank) hops blanks_nil isComment_nil List.not_mem_nil
  rw [String.ofList_toList] at hread
  refine ⟨_, ?_, hread⟩
  simp only [List.mem_append, not_or] at hfront ⊢
  exact ⟨⟨⟨List.not_mem_nil, hfront.1⟩, hfront.2⟩,
    ⟨⟨⟨hmnemonic, by decide⟩, hcs⟩, List.not_mem_nil⟩, List.not_mem_nil⟩

/-! ## What is known of lines -/

/-- What is known of lines that have been read in a dialect.  A register is the letter R of either
case and digits only, of a value below sixteen; the digits behind such a letter are counted up to a
limit. -/
structure WellRead (d : Dialect) (l : Line) : Prop where
  mnemonic : IsName l.mnemonic.toList
  label : ∀ x, l.label = some x → IsName x.toList
  register : ∀ i, .register i ∈ l.operands → 0 ≤ i ∧ i ≤ 15
  hex : ∀ ds, .hex ds ∈ l.operands → ds ≠ "" ∧ ∀ c ∈ ds.toList, Text.isHexadecimal c = true
  chars : ∀ front content back, l.operands = front ++ .chars content :: back → back = [] ∧
    '\n' ∉ content.toList
  direct : ∀ x, .direct x ∈ l.operands → IsName x.toList ∧ IndexBounded x.toList ∧
    ∀ r ds, x.toList = r :: ds → r = 'R' ∨ r = 'r' →
    ds ≠ [] → (∀ c ∈ ds, Text.isDecimal c = true) → 16 ≤ Text.valueOf 10 ds
  relative : ∀ x, .relative x ∈ l.operands → d.hasRelative = true ∧ IsName x.toList

theorem registerIndex?_eq_none_iff {cs : List Char} :
    registerIndex? cs = none ↔ ∀ r ds, cs = r :: ds → r = 'R' ∨ r = 'r' →
    ds ≠ [] → (∀ c ∈ ds, Text.isDecimal c = true) → 16 ≤ Text.valueOf 10 ds := by
  constructor
  · rintro hnone r ds rfl hr hne hds
    by_contra hlt
    rw [registerIndex?_eq_some_iff.2 ⟨r, ds, rfl, by simpa using hr, ⟨hne, hds⟩, rfl, by omega⟩]
      at hnone
    cases hnone
  · intro h
    refine Option.eq_none_iff_forall_ne_some.2 fun i hi => ?_
    obtain ⟨r, ds, rfl, hr, hds, rfl, hlt⟩ := registerIndex?_eq_some_iff.1 hi
    have hle := h r ds rfl (by simpa using hr) hds.1 hds.2
    omega

theorem allAsRead_iff : AllAsRead ops ↔ (∀ op ∈ ops, AsRead op) ∧
    ∀ front content back, ops = front ++ .chars content :: back → back = [] := by
  constructor
  · refine fun h => ⟨h.forall_mem, ?_⟩
    rintro front content back rfl
    obtain _ | ⟨-, hlast, -⟩ := h.right
    exact hlast rfl
  · rintro ⟨hall, hlast⟩
    induction ops with
    | nil => exact .nil
    | cons op ops ih =>
      rw [List.forall_mem_cons] at hall
      refine .cons hall.1 (fun hchars => ?_) (ih hall.2 ?_)
      · cases op with
        | chars content => exact hlast [] content ops rfl
        | _ => cases hchars
      · rintro front content back rfl
        exact hlast (op :: front) content back rfl

theorem WellRead.lineAsRead (h : WellRead d l) : LineAsRead l := by
  refine ⟨h.label, h.mnemonic,
    allAsRead_iff.2 ⟨fun op hop => ?_, fun front content back hops => (h.chars _ _ _ hops).1⟩⟩
  cases op with
  | direct x =>
    obtain ⟨hname, hbound, hregister⟩ := h.direct x hop
    have hread := AsRead.direct hname (registerIndex?_eq_none_iff.2 hregister) hbound
    rwa [String.ofList_toList] at hread
  | relative x =>
    have hread := AsRead.relative (h.relative x hop).2
    rwa [String.ofList_toList] at hread
  | number v => exact .number v
  | register i =>
    obtain ⟨h0, h15⟩ := h.register i hop
    exact .register h0 (by omega)
  | hex ds =>
    obtain ⟨hne, hds⟩ := h.hex ds hop
    have hread := AsRead.hex ⟨by simpa using hne, hds⟩
    rwa [String.ofList_toList] at hread
  | chars content =>
    obtain ⟨front, back, hops⟩ := List.append_of_mem hop
    have hread := AsRead.chars (h.chars _ _ _ hops).2
    rwa [String.ofList_toList] at hread

theorem LineAsRead.wellRead (h : LineAsRead l)
    (hrelative : ∀ x, .relative x ∈ l.operands → d.hasRelative = true) : WellRead d l := by
  obtain ⟨hall, hlast⟩ := allAsRead_iff.1 h.operands
  refine ⟨h.mnemonic, h.label, fun i hi => ?_, fun ds hds => ?_,
    fun front content back hops => ⟨hlast _ _ _ hops, ?_⟩, fun x hx => ?_,
    fun x hx => ⟨hrelative x hx, ?_⟩⟩
  · obtain ⟨h0, h16⟩ : 0 ≤ i ∧ i < 16 := by
      cases hall _ hi with
      | register h0 h16 => exact ⟨h0, h16⟩
    omega
  · cases hall _ hds with
    | hex hrun => exact ⟨by simpa using hrun.1, by simpa using hrun.2⟩
  · have hchars : AsRead (.chars content) := hall _ (by rw [hops]; simp)
    cases hchars with
    | chars hcontent => simpa using hcontent
  · cases hall _ hx with
    | direct hname hnone hbound =>
      rw [String.toList_ofList]
      exact ⟨hname, hbound, registerIndex?_eq_none_iff.1 hnone⟩
  · cases hall _ hx with
    | relative hname => rwa [String.toList_ofList]

end Grammar

namespace Source
open Grammar

theorem hasRelative_of_parse {d : Dialect} {text : String} {s : Source} (h : parse d text = .ok s) :
    ∀ l ∈ s.lines, ∀ x, .relative x ∈ l.operands → d.hasRelative = true := by
  refine forall_of_readFront (fun cs _ l rest hread x hx => ?_) h
  obtain ⟨text, -, ⟨hnone, -⟩ | ⟨l', hl', hfound⟩⟩ := (line_finds d).readFront hread
  · cases hnone
  · obtain rfl := Option.some.inj hl'
    exact hfound.hasRelative hx

/-- The lines that come out of source texts: names for labels and mnemonics, registers from 0 to 15,
hexadecimal strings with digits only, strings of characters at the end only and without line ends,
direct names that are no registers, and relative names in the dialects that have them.  Every line
from a text is like this, and every line like this comes from a text. -/
theorem exists_parse_iff_wellRead (d : Dialect) (l : Line) :
    (∃ text s, parse d text = .ok s ∧ l ∈ s.lines) ↔ WellRead d l := by
  constructor
  · rintro ⟨text, s, hparse, hl⟩
    exact (asRead_of_parse hparse l hl).wellRead (hasRelative_of_parse hparse l hl)
  · intro h
    obtain ⟨cs, hcs, hread⟩ := exists_line_text h.lineAsRead fun x hx => (h.relative x hx).1
    rw [← String.toList_ofList (l := cs)] at hcs hread
    exact ⟨String.ofList cs, ⟨[l], []⟩, parse_of_reads hcs hread, List.mem_singleton_self l⟩

/-- A line with every kind of operand; the second one has too large a number for a register. -/
def allKinds : Line :=
  ⟨some "loop_1",
    ⟨"MOV", [.register 15, .direct "r16", .number (-31), .hex "0f", .relative "y", .chars "a;'b"]⟩⟩

/-- It is read, so it is as lines that are read are. -/
theorem allKinds_wellRead :
    parse ⟨.sectioned, .onePass⟩ "loop_1: MOV R15, r16, -0x1F, x\"0f\", @y, c'a;'b'" =
      .ok ⟨[allKinds], []⟩ ∧
      WellRead ⟨.sectioned, .onePass⟩ allKinds := by
  have hparse :
      parse ⟨.sectioned, .onePass⟩ "loop_1: MOV R15, r16, -0x1F, x\"0f\", @y, c'a;'b'" =
        .ok ⟨[allKinds], []⟩ := by
    decide +kernel
  exact ⟨hparse, (exists_parse_iff_wellRead _ allKinds).1 ⟨_, _, hparse, List.mem_singleton_self _⟩⟩

end Source

end Assembler
