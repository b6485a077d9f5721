import Mathlib.Tactic.IntervalCases
import Assembler.Written
import Assembler.Proofs.LineLanguage
import Assembler.Proofs.Reports

/-! # Reading written lines again

A line that was read is written and read again.  What comes back is the line with its operands
reread one by one (`reread`): the registers from ten on are written with a letter and come back as
names.  Relative names are written in brackets, which no operand begins with, so a line that has one
cannot be read again.  `Source.parse_written_iff` puts these together. -/

namespace Assembler.Grammar
open Reader
set_option autoImplicit false

variable {d : Dialect} {cs text rest : List Char} {op : Operand} {ops more : List Operand}

/-! ## Operands as they are read -/

/-- What is known of operands that have been read from a line. -/
inductive AsRead : Operand → Prop
  | direct {cs : List Char} : IsName cs → registerIndex? cs = none → IndexBounded cs →
      AsRead (.direct (String.ofList cs))
  | relative {cs : List Char} : IsName cs → AsRead (.relative (String.ofList cs))
  | number (v : Int) : AsRead (.number v)
  | register {i : Int} : 0 ≤ i → i < 16 → AsRead (.register i)
  | hex {ds : List Char} : IsRun Text.isHexadecimal ds → AsRead (.hex (String.ofList ds))
  | chars {content : List Char} : '\n' ∉ content → AsRead (.chars (String.ofList content))

/-- Operands that have been read: only the last may be a string of characters. -/
inductive AllAsRead : List Operand → Prop
  | nil : AllAsRead []
  | cons {op : Operand} {ops : List Operand} : AsRead op → (op.kind = .chars → ops = []) →
      AllAsRead ops → AllAsRead (op :: ops)

theorem OperandFound.asRead (h : OperandFound d text op rest) (hline : '\n' ∉ text) :
    AsRead op ∧ (op.kind = .chars → rest = []) := by
  obtain ⟨h, hbound⟩ | h := h
  · cases h with
    | name hname =>
      unfold nameOperand
      split
      · next i hindex =>
        obtain ⟨r, ds, -, -, -, -, hlt⟩ := registerIndex?_eq_some_iff.1 hindex
        exact ⟨.register (Int.natCast_nonneg i) (Int.ofNat_lt.2 hlt), nofun⟩
      · next hindex => exact ⟨.direct hname hindex hbound.indexBounded, nofun⟩
    | relative _ hname => exact ⟨.relative hname, nofun⟩
    | number => exact ⟨.number _, nofun⟩
    | minusZero => exact ⟨.register (by decide) (by decide), nofun⟩
  · cases h with
    | hex _ hds => exact ⟨.hex hds, nofun⟩
    | chars _ hclosed =>
      refine ⟨.chars fun hmem => hline ?_, fun _ => rfl⟩
      have hsub := (closedChars_suffix hclosed).subset (List.mem_reverse.1 hmem)
      simp [List.mem_reverse.1 hsub]

theorem allAsRead_of_items
    (h : Items (OperandFound d) (fun s _ => ∃ bs, s = ',' :: bs ∧ Blanks bs) text ops rest)
    (hline : '\n' ∉ text) : AllAsRead ops ∧ (text = [] → ops = []) := by
  induction h with
  | nil => exact ⟨.nil, fun _ => rfl⟩
  | @cons sep text more rest op ops hsep hop _ ih =>
    obtain ⟨bs, rfl, -⟩ := hsep
    simp only [List.mem_append, not_or] at hline
    obtain ⟨hread, hlast⟩ := hop.asRead hline.1.2
    obtain ⟨hmore, hnil⟩ := ih hline.2
    exact ⟨.cons hread (fun hchars => hnil (List.append_eq_nil_iff.1 (hlast hchars)).1) hmore,
      nofun⟩

theorem OperandsFound.allAsRead (h : OperandsFound d text ops rest) (hline : '\n' ∉ text) :
    AllAsRead ops := by
  cases h with
  | none => exact .nil
  | some hop hmore =>
    simp only [List.mem_append, not_or] at hline
    obtain ⟨hread, hlast⟩ := hop.asRead hline.1
    obtain ⟨hmore, hnil⟩ := allAsRead_of_items hmore hline.2
    exact .cons hread (fun hchars => hnil (List.append_eq_nil_iff.1 (hlast hchars)).1) hmore

/-- What is known of lines that have been read. -/
structure LineAsRead (l : Line) : Prop where
  label : ∀ x ∈ l.label, IsName x.toList
  mnemonic : IsName l.mnemonic.toList
  operands : AllAsRead l.operands

theorem LineFound.asRead {l : Line} (h : LineFound d text l rest) (hline : '\n' ∉ text) :
    LineAsRead l := by
  obtain ⟨-, hlab, -, ⟨-, hm, -, -, hops⟩, -, -, -⟩ := h
  simp only [List.mem_append, not_or] at hline
  refine ⟨fun x hx => ?_, by rwa [Line.mnemonic, String.toList_ofList],
    hops.allAsRead hline.1.1.2.2⟩
  cases hlab with
  | none => cases hx
  | some hname =>
    obtain rfl := Option.some.inj hx
    rwa [String.toList_ofList]

/-! ## Written operands -/

theorem digits_decimal (n : Nat) : IsRun Text.isDecimal (Nat.toDigits 10 n) ∧
    Text.valueOf 10 (Nat.toDigits 10 n) = n := by
  refine ⟨⟨Nat.toDigits_ne_nil, fun c hc => ?_⟩,
    Text.valueOf_digits .lower (by decide) (by decide) n⟩
  have hdigit := Nat.isDigit_of_mem_toDigits (by decide) (by decide) hc
  simpa [Char.isDigit, Text.isDecimal, char_le_iff, UInt32.le_iff_toNat_le] using hdigit

theorem decimal_eq (v : Int) :
    ∃ sign, (Text.decimal v).toList = signText sign ++ Nat.toDigits 10 v.natAbs ∧
    signed sign v.natAbs = v := by
  unfold Text.decimal Text.formatInt
  rw [String.toList_ofList]
  split
  · exact ⟨some (), by simp [Text.padLeft, Text.digits, signText], by simp only [signed]; omega⟩
  · exact ⟨none, by simp [Text.padLeft, Text.digits, signText], by simp only [signed]; omega⟩

/-- The operand that a written operand is read as. -/
def reread : Operand → Operand
  | .register i => if i < 10 then .register i else .direct ("R" ++ Text.hex .upper 0 i)
  | op => op

theorem reread_eq_self_iff {op : Operand} : reread op = op ↔ ∀ i, op = .register i → i < 10 := by
  cases op with
  | register i =>
    rw [reread]
    split
    · next hlt => simpa using hlt
    · next hlt => simpa using hlt
  | _ => exact iff_of_true rfl nofun

theorem map_reread_eq_self_iff {ops : List Operand} :
    ops.map reread = ops ↔ ∀ op ∈ ops, ∀ i, op = .register i → i < 10 := by
  induction ops with
  | nil => exact iff_of_true rfl nofun
  | cons op ops ih =>
    rw [List.map_cons, List.cons.injEq, List.forall_mem_cons, ih, reread_eq_self_iff]

theorem register_text {i : Int} (h0 : 0 ≤ i) (h16 : i < 16) :
    ∃ c, (Operand.register i).text.toList = ['R', c] ∧
    isNameChar c = true ∧ nameOperand ['R', c] = reread (.register i) := by
  refine ⟨Text.digit .upper i.natAbs, ?_, ?_⟩
  · have hdigits := Text.digits_of_lt .upper (show i.natAbs < 16 by omega)
    simp [Operand.text, Text.hex, Text.formatInt, Int.not_lt.2 h0, hdigits, Text.padLeft]
  · interval_cases i <;> decide +kernel

theorem relative_text (x : String) :
    (Operand.relative x).text.toList = '[' :: x.toList ++ [']'] := by simp [Operand.text]

theorem hex_text (ds : List Char) :
    (Operand.hex (String.ofList ds)).text.toList = 'x' :: Text.singleQuote ::
      ds ++ [Text.singleQuote] := by
  simp [Operand.text, Text.singleQuote]

theorem chars_text (content : List Char) :
    (Operand.chars (String.ofList content)).text.toList = 'c' :: Text.singleQuote :: content ++
      [Text.singleQuote] := by
  simp [Operand.text, Text.singleQuote]

/-- A written operand begins with no blank and stays on its line. -/
theorem text_shape (h : AsRead op) (rest : List Char) : Ends Text.isBlank (op.text.toList ++ rest) ∧
    '\n' ∉ op.text.toList := by
  have hname : ∀ {cs : List Char}, (∀ c ∈ cs, isNameChar c = true) → '\n' ∉ cs :=
    fun hcs hmem => by cases hcs _ hmem
  cases h with
  | direct h =>
    rw [Operand.text, String.toList_ofList]
    exact ⟨h.ends_blank rest, hname h.nameChars⟩
  | relative h =>
    rw [relative_text, String.toList_ofList]
    exact ⟨ends_cons.2 rfl, by simp [hname h.nameChars]⟩
  | number v =>
    obtain ⟨sign, htext, -⟩ := decimal_eq v
    have hrun := (digits_decimal v.natAbs).1
    have hnumber : OperandText .absoluteTwoPass _ (.number _) := .number (.mk sign (.decimal hrun))
    have hdigits := hname fun c hc => isNameChar_of_isDecimal (hrun.2 c hc)
    rw [Operand.text, htext]
    refine ⟨hnumber.ends_blank rest, List.not_mem_append ?_ hdigits⟩
    cases sign <;> simp [signText]
  | register h0 h16 =>
    obtain ⟨c, htext, hc, -⟩ := register_text h0 h16
    rw [htext]
    exact ⟨ends_cons.2 rfl, hname (by simpa using ⟨rfl, hc⟩)⟩
  | hex hds =>
    rw [hex_text]
    have hdigits := hname fun c hc => isNameChar_of_isHexadecimal (hds.2 c hc)
    exact ⟨ends_cons.2 rfl, by simp [hdigits, Text.singleQuote]⟩
  | chars hcontent =>
    rw [chars_text]
    exact ⟨ends_cons.2 rfl, by simp [hcontent, Text.singleQuote]⟩

theorem chars_operand_reads {q : Char} (hq : q ∈ quotes) (content : List Char) :
    (operand d).Reads ('c' :: q :: content ++ [q]) (.chars (String.ofList content)) [] := by
  have hquote : Text.isBlank q = false ∧ q ≠ ';' := by
    obtain rfl | rfl := eq_of_mem_quotes hq <;> decide
  have hclosed : closedChars q (content ++ [q]).reverse = some content.reverse := by
    simp [closedChars, beforeCommented, beforeQuote, hquote]
  have hread := closed_operand_reads (d := d) hq hclosed
  rwa [List.reverse_reverse] at hread

/-- Written operands that are not relative are read again, in front of anything that may follow
them. -/
theorem text_reads (h : AsRead op)
    (hsmall : ∀ v, op = .number v → v.natAbs < 10 ^ Text.decimalLimit)
    (hrelative : ∀ x, op ≠ .relative x) (hrest : Follows rest)
    (hlast : op.kind = .chars → rest = []) :
    (operand d).Reads op.text.toList (reread op) rest := by
  cases h with
  | @direct cs hname hnone hbound =>
    have hread := name_operand_reads (d := d) hname hrest hbound
    rw [nameOperand, hnone] at hread
    rwa [Operand.text, String.toList_ofList]
  | relative => exact absurd rfl (hrelative _)
  | number v =>
    obtain ⟨sign, htext, hsigned⟩ := decimal_eq v
    obtain ⟨hrun, hvalue⟩ := digits_decimal v.natAbs
    have hlength : (Nat.toDigits 10 v.natAbs).length ≤ Text.decimalLimit :=
      (Nat.length_toDigits_le_iff (by decide) (by decide)).2 (hsmall v rfl)
    have hread :=
      number_operand_reads (d := d) sign (.decimal hrun) hrest.not_nameChar fun _ => hlength
    rw [hvalue, hsigned] at hread
    rwa [Operand.text, htext]
  | @register i h0 h16 =>
    obtain ⟨c, htext, hc, hname⟩ := register_text h0 h16
    have hbound : IndexBounded ['R', c] := by
      rintro r tail htail -
      obtain ⟨-, rfl⟩ := List.cons.inj htail
      exact (List.takeWhile_prefix _).length_le.trans (show 1 ≤ Text.decimalLimit by decide)
    rw [htext, ← hname]
    exact name_operand_reads ⟨'R', [c], rfl, rfl, by simpa using hc⟩ hrest hbound
  | @hex ds hds =>
    rw [hex_text]
    exact operand_reads_constant
      ((string_misses (.inl rfl) _).orElse_reads (hexString_reads (by decide) hds rest)).orElse
  | @chars content hcontent =>
    obtain rfl := hlast rfl
    rw [chars_text]
    exact chars_operand_reads (by decide) content

/-! ## Written lists of operands -/

/-- The written form of further operands. -/
def moreText (ops : List Operand) : List Char := ops.flatMap fun op => ',' :: ' ' :: op.text.toList

theorem moreText_append (ops more : List Operand) :
    moreText (ops ++ more) = moreText ops ++ moreText more := List.flatMap_append

theorem listText_cons (op : Operand) (ops : List Operand) :
    (Operand.listText (op :: ops)).toList = op.text.toList ++ moreText ops := by
  unfold Operand.listText
  induction ops generalizing op with
  | nil => simp [moreText]
  | cons op' ops ih =>
    have hmore := ih op'
    rw [List.map_cons] at hmore
    rw [List.map_cons, List.map_cons, String.intercalate_cons_cons, String.toList_append,
      String.toList_append, hmore]
    simp [moreText]

theorem AllAsRead.right (h : AllAsRead (ops ++ more)) : AllAsRead more := by
  induction ops with
  | nil => exact h
  | cons op ops ih =>
    obtain _ | ⟨-, -, h⟩ := h
    exact ih h

theorem AllAsRead.forall_mem (h : AllAsRead ops) : ∀ op ∈ ops, AsRead op := by
  induction h with
  | nil => exact nofun
  | cons hop _ _ ih => exact List.forall_mem_cons.2 ⟨hop, ih⟩

theorem moreText_follows (ops : List Operand) : Follows (moreText ops) := by
  cases ops with
  | nil => exact nofun
  | cons op ops =>
    intro c hc
    obtain rfl : ',' = c := by simpa [moreText] using hc
    exact .inr (.inl rfl)

/-- Operands that can be written and are not relative. -/
def Plain (ops : List Operand) : Prop :=
  ∀ op ∈ ops, (∀ v, op = .number v → v.natAbs < 10 ^ Text.decimalLimit) ∧ ∀ x, op ≠ .relative x

theorem text_reads_more (h : AllAsRead (op :: ops ++ more)) (hplain : Plain (op :: ops)) :
    (operand d).Reads op.text.toList (reread op) (moreText ops ++ moreText more) := by
  obtain _ | ⟨hop, hlast, -⟩ := h
  obtain ⟨hsmall, hrelative⟩ := hplain op List.mem_cons_self
  rw [← moreText_append]
  refine text_reads hop hsmall hrelative (moreText_follows _) fun hchars => ?_
  have hnil : ops ++ more = [] := hlast hchars
  rw [hnil]
  rfl

theorem blank_space : Blanks [' '] := List.forall_mem_singleton.2 rfl

theorem moreText_items (h : AllAsRead (ops ++ more)) (hplain : Plain ops) :
    Items (operand d).Reads (fun s t => s ≠ [] ∧ ∃ u, separator.Reads s u t) (moreText ops)
      (ops.map reread) (moreText more) := by
  induction ops with
  | nil => exact .nil _
  | cons op ops ih =>
    have hread := text_reads_more (d := d) h hplain
    obtain _ | ⟨hop, -, h⟩ := h
    have hblank : Ends Text.isBlank (op.text.toList ++ moreText ops ++ moreText more) := by
      rw [List.append_assoc]
      exact (text_shape hop _).1
    have hseparator := separator_reads blank_space hblank
    exact .cons ⟨by simp, (), hseparator⟩ hread
      (ih h fun op hop => hplain op (List.mem_cons_of_mem _ hop))

theorem relative_misses (x : String) (rest : List Char) :
    (operand d).Misses ((Operand.relative x).text.toList ++ rest) := by
  rw [relative_text]
  exact operand_misses (ends_cons.2 rfl)

theorem noItem_moreText (h : AllAsRead more) (hmore : ∀ op ∈ more.head?, ∃ x, op = .relative x) :
    NoItem (operand d) separator (moreText more) := by
  cases h with
  | nil => exact .inl (separator_misses nofun)
  | @cons op ops hop =>
    obtain ⟨x, rfl⟩ := hmore op rfl
    exact .inr ⟨[',', ' '], _, (), rfl, separator_reads blank_space (text_shape hop _).1,
      relative_misses x _⟩

theorem listText_reads (h : AllAsRead (ops ++ more)) (hplain : Plain ops)
    (hmore : ∀ op ∈ more.head?, ∃ x, op = .relative x) :
    ∃ front rest, (Operand.listText (ops ++ more)).toList = front ++ rest ∧
      (separated (operand d) separator).Reads front (ops.map reread) rest ∧
      (more = [] → rest = []) ∧
      (more ≠ [] → ∃ c t, rest = c :: t ∧ (c = ',' ∨ c = '[')) := by
  have hend := noItem_moreText (d := d) h.right hmore
  cases ops with
  | cons op ops =>
    refine ⟨op.text.toList ++ moreText ops, moreText more, ?_, ?_, ?_, fun hne => ?_⟩
    · rw [List.cons_append, listText_cons, moreText_append, List.append_assoc]
    · have hread := text_reads_more (d := d) h hplain
      obtain _ | ⟨-, -, h⟩ := h
      exact reads_separated hread
        (moreText_items h fun op hop => hplain op (List.mem_cons_of_mem _ hop)) hend
    · rintro rfl
      rfl
    · obtain ⟨op, more, rfl⟩ := List.exists_cons_of_ne_nil hne
      exact ⟨',', _, rfl, .inl rfl⟩
  | nil =>
    cases more with
    | nil =>
      exact ⟨[], [], rfl, Misses.separated (operand_misses (ends_nil _)), fun _ => rfl,
        fun hne => absurd rfl hne⟩
    | cons op more =>
      obtain ⟨x, rfl⟩ := hmore op rfl
      refine ⟨[], _, listText_cons _ _, Misses.separated (relative_misses x _), nofun, fun _ => ?_⟩
      rw [relative_text]
      exact ⟨'[', _, rfl, .inr rfl⟩

/-! ## Written lines -/

theorem listText_no_newline (h : AllAsRead ops) : '\n' ∉ (Operand.listText ops).toList := by
  have hmore : '\n' ∉ moreText ops := by
    intro hmem
    obtain ⟨op, hop, hmem⟩ := List.mem_flatMap.1 hmem
    have hnot := (text_shape (h.forall_mem op hop) []).2
    simp [hnot] at hmem
  cases ops with
  | nil => simp [Operand.listText]
  | cons op ops =>
    rw [listText_cons]
    simp only [moreText, List.flatMap_cons, List.cons_append, List.mem_cons, not_or] at hmore
    exact hmore.2.2

theorem listText_ends_blank (h : AllAsRead ops) :
    Ends Text.isBlank (Operand.listText ops).toList := by
  cases h with
  | nil => exact ends_nil _
  | cons hop =>
    rw [listText_cons]
    exact (text_shape hop _).1

/-- The written form of a line: what stands before the mnemonic, and the rest. -/
theorem line_text {l : Line} (h : LineAsRead l) : ∃ name b, LabelText name l.label ∧ Blanks b ∧
    '\n' ∉ name ++ b ∧
    l.text.toList =
      name ++ b ++ (l.mnemonic.toList ++ [' '] ++ (Operand.listText l.operands).toList) := by
  have hcommand :
      l.command.text.toList = l.mnemonic.toList ++ [' '] ++
        (Operand.listText l.operands).toList := by
    simp [Command.text, Line.mnemonic, Line.operands]
  cases hlab : l.label with
  | none =>
    have hname : l.name? = none := by rw [Line.name?, hlab]
    exact ⟨[], [], .none, blanks_nil, List.not_mem_nil, by rw [Line.text, hname, hcommand]; rfl⟩
  | some x =>
    have hx := h.label x hlab
    have hne : x ≠ "" := by
      rintro rfl
      obtain ⟨c, t, hcs, -⟩ := hx
      cases hcs
    have hname : l.name? = some x := by
      rw [Line.name?, hlab]
      split
      · next heq => exact absurd (Option.some.inj heq) hne
      · rfl
    have hlabel := LabelText.some hx
    rw [String.ofList_toList] at hlabel
    have hnewline : '\n' ∉ x.toList := fun hmem => by cases hx.nameChars _ hmem
    exact ⟨x.toList ++ [':'], [' '], hlabel,
      blank_space, by simp [hnewline], by rw [Line.text, hname]; simp [hcommand]⟩

theorem line_text_no_newline {l : Line} (h : LineAsRead l) : '\n' ∉ l.text.toList := by
  obtain ⟨name, b, -, -, hfront, htext⟩ := line_text h
  have hmnemonic : '\n' ∉ l.mnemonic.toList := fun hmem => by cases h.mnemonic.nameChars _ hmem
  rw [htext]
  refine List.not_mem_append hfront (List.not_mem_append ?_ (listText_no_newline h.operands))
  simp [hmnemonic]

theorem line_text_reads {l : Line} (h : LineAsRead l) (hplain : Plain l.operands) :
    (line d).Reads l.text.toList (some ⟨l.label, ⟨l.mnemonic, l.operands.map reread⟩⟩) [] := by
  obtain ⟨name, b, hlab, hb, -, htext⟩ := line_text h
  have hall : AllAsRead (l.operands ++ []) := by rw [List.append_nil]; exact h.operands
  obtain ⟨front, rest, hlist, hops, hnil, -⟩ := listText_reads (d := d) hall hplain nofun
  obtain rfl := hnil rfl
  rw [List.append_nil, List.append_nil] at hlist
  have hblank : Ends Text.isBlank (front ++ ([] ++ [])) := by
    rw [List.append_nil, List.append_nil, ← hlist]
    exact listText_ends_blank h.operands
  have hends : Ends isNameChar ([' '] ++ front ++ ([] ++ [])) := ends_cons.2 rfl
  have hread :=
    line_reads blanks_nil hlab hb h.mnemonic blank_space hends (by simp) hblank hops blanks_nil
      isComment_nil List.not_mem_nil
  rw [String.ofList_toList] at hread
  rw [htext, hlist]
  simpa using hread

theorem exists_first_relative (ops : List Operand) :
    ∃ front more, ops = front ++ more ∧ (∀ op ∈ front, ∀ x, op ≠ .relative x) ∧
    ∀ op ∈ more.head?, ∃ x, op = .relative x := by
  induction ops with
  | nil => exact ⟨[], [], rfl, nofun, nofun⟩
  | cons op ops ih =>
    obtain ⟨front, more, rfl, hfront, hmore⟩ := ih
    by_cases hop : ∃ x, op = .relative x
    · refine ⟨[], op :: (front ++ more), rfl, nofun, fun op' hop' => ?_⟩
      obtain rfl : op = op' := by simpa using hop'
      exact hop
    · refine ⟨op :: front, more, rfl, List.forall_mem_cons.2 ⟨fun x hx => hop ⟨x, hx⟩, hfront⟩,
        hmore⟩

theorem line_text_misses {l : Line} (h : LineAsRead l)
    (hsmall : ∀ v, .number v ∈ l.operands → v.natAbs < 10 ^ Text.decimalLimit) {x : String}
    (hx : .relative x ∈ l.operands) : (line d).Misses l.text.toList := by
  obtain ⟨name, b, hlab, hb, -, htext⟩ := line_text h
  obtain ⟨before, more, hsplit, hbefore, hmore⟩ := exists_first_relative l.operands
  have hne : more ≠ [] := by
    rintro rfl
    rw [hsplit, List.append_nil] at hx
    exact hbefore _ hx x rfl
  have hplain : Plain before := by
    refine fun op hop => ⟨fun v hv => hsmall v ?_, hbefore op hop⟩
    rw [hsplit, ← hv]
    exact List.mem_append_left _ hop
  obtain ⟨front, rest, hlist, hops, -, hrest⟩ :=
    listText_reads (d := d) (hsplit ▸ h.operands) hplain hmore
  rw [← hsplit] at hlist
  obtain ⟨c, t, rfl, hc⟩ := hrest hne
  have hmark : Text.isBlank c = false ∧ c ≠ ';' := by obtain rfl | rfl := hc <;> decide
  have htail : tail.Misses ([] ++ c :: t) := tail_misses blanks_nil hmark.1 hmark.2
  have hends : Ends isNameChar ([' '] ++ front ++ c :: t) := ends_cons.2 rfl
  have hcommand :=
    command_misses h.mnemonic blank_space hends (hlist ▸ listText_ends_blank h.operands) hops htail
  have hmiss := line_misses blanks_nil hlab hb h.mnemonic hends (by simp) (by simpa using hcommand)
  rw [htext, hlist]
  simpa using hmiss

end Assembler.Grammar

namespace Assembler
open Grammar

/-! ## Written sources -/

theorem Text.splitLines_ne_nil (cs : List Char) : splitLines cs ≠ [] := by
  cases cs with
  | nil => exact nofun
  | cons c cs =>
    rw [splitLines]
    split
    · exact nofun
    · split <;> exact nofun

theorem Text.splitLines_no_newline (cs : List Char) : ∀ line ∈ splitLines cs, '\n' ∉ line := by
  induction cs with
  | nil => simp [splitLines]
  | cons c cs ih =>
    rw [splitLines]
    split
    · next hnil => exact absurd hnil (splitLines_ne_nil cs)
    · next line lines hlines =>
      rw [hlines, List.forall_mem_cons] at ih
      split
      · exact List.forall_mem_cons.2 ⟨List.not_mem_nil, List.forall_mem_cons.2 ih⟩
      · next hc =>
        refine List.forall_mem_cons.2 ⟨?_, ih.2⟩
        rw [List.mem_cons, not_or]
        exact ⟨Ne.symm hc, ih.1⟩

theorem Text.splitLines_of_no_newline {cs : List Char} (h : '\n' ∉ cs) : splitLines cs = [cs] := by
  induction cs with
  | nil => rfl
  | cons c cs ih =>
    rw [List.mem_cons, not_or] at h
    rw [splitLines, ih h.2]
    exact if_neg (Ne.symm h.1)

namespace Source

/-- What holds of the lines that are read one by one holds of all. -/
theorem forall_of_readFront {d : Dialect} {P : Line → Prop} {texts : List (List Char)}
    (hp : ∀ cs ∈ texts, ∀ l rest, Reader.readFront (line d) (String.ofList cs) =
      .ok (some l, rest) → P l) {n : Nat} {s : Source}
    (h : ofLines d n texts = .ok s) : ∀ l ∈ s.lines, P l := by
  induction texts generalizing n s with
  | nil =>
    obtain rfl := Except.ok.inj h
    exact nofun
  | cons cs rest ih =>
    have hlater := fun cs hcs => hp cs (List.mem_cons_of_mem _ hcs)
    rw [ofLines] at h
    split at h
    · next read back hread =>
      obtain ⟨s', hs', rfl⟩ := (map_eq_ok_iff _ _ _).1 h
      cases read with
      | none => exact ih hlater hs'
      | some l =>
        exact List.forall_mem_cons.2 ⟨hp cs List.mem_cons_self l back hread, ih hlater hs'⟩
    · obtain ⟨s', hs', rfl⟩ := (map_eq_ok_iff _ _ _).1 h
      exact fun l hl => ih hlater hs' l hl
    · cases h

theorem asRead_of_parse {d : Dialect} {text : String} {s : Source} (h : parse d text = .ok s) :
    ∀ l ∈ s.lines, LineAsRead l := by
  refine forall_of_readFront (fun cs hcs l rest hread => ?_) h
  obtain ⟨text, htext, ⟨hnone, -⟩ | ⟨l', hl', hfound⟩⟩ := (line_finds d).readFront hread
  · cases hnone
  · obtain rfl := Option.some.inj hl'
    rw [String.toList_ofList] at htext
    refine hfound.asRead fun hmem => Text.splitLines_no_newline _ cs hcs ?_
    rw [htext]
    exact List.mem_append_left _ hmem

theorem parse_of_reads {d : Dialect} {t : String} {read : Option Line} (hline : '\n' ∉ t.toList)
    (h : (line d).Reads t.toList read []) : parse d t = .ok ⟨read.toList, []⟩ := by
  have hread : Reader.readFront (line d) (String.ofList t.toList) = .ok (read, []) :=
    h.readFront (by rw [String.toList_ofList, List.append_nil])
  rw [parse, Text.splitLines_of_no_newline hline, ofLines, hread]
  cases read <;> rfl

theorem parse_of_misses {d : Dialect} {t : String} (hline : '\n' ∉ t.toList)
    (h : (line d).Misses t.toList) :
    ∃ b, parse d t = .ok ⟨[], [b]⟩ := by
  obtain ⟨place, hread⟩ :=
    Reader.Misses.readFront (s := String.ofList t.toList) (by rwa [String.toList_ofList])
  refine ⟨⟨1, t.toList, place⟩, ?_⟩
  rw [parse, Text.splitLines_of_no_newline hline, ofLines, hread]
  rfl

theorem parse_text_iff {d : Dialect} {l : Line} (h : LineAsRead l)
    (hsmall : ∀ v, .number v ∈ l.operands → v.natAbs < 10 ^ Text.decimalLimit) :
    parse d l.text = .ok ⟨[l], []⟩ ↔ ∀ op ∈ l.operands, (∀ i, op = .register i → i < 10) ∧
      ∀ x, op ≠ .relative x := by
  have hline := line_text_no_newline h
  by_cases hrelative : ∃ x, .relative x ∈ l.operands
  · obtain ⟨x, hx⟩ := hrelative
    obtain ⟨b, hparse⟩ := parse_of_misses hline (line_text_misses (d := d) h hsmall hx)
    refine iff_of_false (fun hread => ?_) fun hall => (hall _ hx).2 x rfl
    cases hparse.symm.trans hread
  · have hnot : ∀ op ∈ l.operands, ∀ x, op ≠ .relative x :=
      fun op hop x hx => hrelative ⟨x, hx ▸ hop⟩
    have hplain : Plain l.operands := fun op hop => ⟨fun v hv => hsmall v (hv ▸ hop), hnot op hop⟩
    have hparse := parse_of_reads hline (line_text_reads (d := d) h hplain)
    have hself : (⟨l.label, ⟨l.mnemonic, l.operands.map reread⟩⟩ : Line) = l ↔
        l.operands.map reread = l.operands := by
      obtain ⟨label, m, ops⟩ := l
      simp [Line.mnemonic, Line.operands]
    rw [hparse, Except.ok.injEq, Source.mk.injEq, Option.toList_some, List.cons.injEq, hself,
      map_reread_eq_self_iff]
    exact ⟨fun h op hop => ⟨h.1.1 op hop, hnot op hop⟩,
      fun h => ⟨⟨fun op hop => (h op hop).1, rfl⟩, rfl⟩⟩

theorem written_eq_text {l : Line}
    (hsmall : ∀ v, .number v ∈ l.operands → v.natAbs < 10 ^ Text.decimalLimit) :
    l.written = .ok l.text := by
  have hfits : ∀ k n, Text.fitsDigits k n = true ↔ n < 10 ^ k := Text.fitsDigits_iff
  refine if_pos (List.all_eq_true.2 fun op hop => ?_)
  cases op with
  | number v => exact (hfits _ _).2 (hsmall v hop)
  | _ => rfl

/-- The line that puts characters into memory. -/
def byteLine (content : String) : Line := ⟨none, ⟨"BYTE", [.chars content]⟩⟩

theorem isName_byte : IsName "BYTE".toList :=
  ⟨'B', ['Y', 'T', 'E'], rfl, rfl, List.all_eq_true.1 rfl⟩

theorem byteLine_asRead {content : String} (h : '\n' ∉ content.toList) :
    LineAsRead (byteLine content) := by
  have hchars := AsRead.chars h
  rw [String.ofList_toList] at hchars
  exact ⟨nofun, isName_byte, .cons hchars (fun _ => rfl) .nil⟩

theorem parse_byteLine (d : Dialect) {q : Char} (hq : q ∈ quotes) {content : String}
    (h : '\n' ∉ content.toList) :
    parse d (String.ofList ("BYTE c".toList ++ q :: content.toList ++ [q])) =
      .ok ⟨[byteLine content], []⟩ := by
  have hoperand := chars_operand_reads (d := d) hq content.toList
  rw [String.ofList_toList] at hoperand
  have hops :
      (Reader.separated (operand d) separator).Reads ('c' :: q :: content.toList ++ [q] ++ [])
        [.chars content] ([] ++ []) :=
        Reader.reads_separated hoperand (.nil _) (.inl (separator_misses nofun))
  have hread :=
    line_reads blanks_nil .none blanks_nil isName_byte blank_space (Reader.ends_cons.2 rfl)
      (by simp) (Reader.ends_cons.2 rfl) hops blanks_nil isComment_nil List.not_mem_nil
  have hnewline : '\n' ∉ "BYTE c".toList ++ q :: content.toList ++ [q] := by
    obtain rfl | rfl := eq_of_mem_quotes hq <;> simp [h, Text.singleQuote, Text.doubleQuote]
  have hbyte :
      (line d).Reads ("BYTE c".toList ++ q :: content.toList ++ [q]) (some (byteLine content))
        [] := by
    simpa [byteLine] using hread
  exact parse_of_reads (by rwa [String.toList_ofList]) (by rwa [String.toList_ofList])

/-- A line that was read is written and read again: it comes back alone and unchanged just if it has
no register from ten on and no relative name.  A string of characters comes back whatever it holds
and whichever quotes it was in. -/
theorem parse_written_iff (d : Dialect) :
    (∀ (text : String) (s : Source) (l : Line), parse d text = .ok s → l ∈ s.lines →
      (∀ v, .number v ∈ l.operands → v.natAbs < 10 ^ Text.decimalLimit) →
      ∃ written, l.written = .ok written ∧
        (parse d written = .ok ⟨[l], []⟩ ↔ ∀ op ∈ l.operands, (∀ i, op = .register i → i < 10) ∧
          ∀ x, op ≠ .relative x)) ∧
    ∀ q ∈ quotes, ∀ content : String, '\n' ∉ content.toList →
      parse d (String.ofList ("BYTE c".toList ++ q :: content.toList ++ [q])) =
        .ok ⟨[byteLine content], []⟩ ∧
        ∃ written, (byteLine content).written = .ok written ∧
        parse d written = .ok ⟨[byteLine content], []⟩ := by
  constructor
  · intro text s l hparse hl hsmall
    exact ⟨l.text, written_eq_text hsmall, parse_text_iff (asRead_of_parse hparse l hl) hsmall⟩
  · intro q hq content hcontent
    have hsmall : ∀ v, .number v ∈ (byteLine content).operands →
        v.natAbs < 10 ^ Text.decimalLimit := by
      simp [byteLine, Line.operands]
    have hback :=
      (parse_text_iff (d := d) (byteLine_asRead hcontent) hsmall).2
        (by simp [byteLine, Line.operands])
    exact ⟨parse_byteLine d hq hcontent, _, written_eq_text hsmall, hback⟩

/-- Two lines, of which the first comes back and the second does not. -/
def mixedText : String := "X: BYTE -0x1F,x\"0f\", c\"it's; \" ; '\nADD R9,R10"

def mixedFirst : Line := ⟨some "X", ⟨"BYTE", [.number (-31), .hex "0f", .chars "it's; "]⟩⟩

def mixedSecond : Line := ⟨none, ⟨"ADD", [.register 9, .register 10]⟩⟩

/-- What becomes of the two lines, and of a string with both quotes in it. -/
theorem mixedText_written : (∃ written, mixedFirst.written = .ok written ∧
    parse ⟨.sectioned, .onePass⟩ written = .ok ⟨[mixedFirst], []⟩) ∧
    (∃ written, mixedSecond.written = .ok written ∧
      parse ⟨.sectioned, .onePass⟩ written ≠ .ok ⟨[mixedSecond], []⟩) ∧
    parse ⟨.sectioned, .onePass⟩
      (String.ofList ("BYTE c".toList ++ '"' :: "a';\" b".toList ++ ['"'])) =
        .ok ⟨[byteLine "a';\" b"], []⟩ := by
  have hparse : parse ⟨.sectioned, .onePass⟩ mixedText = .ok ⟨[mixedFirst, mixedSecond], []⟩ := by
    decide +kernel
  have hsmall : 31 < 10 ^ Text.decimalLimit := calc
    31 < 10 ^ 2 := by decide
    _ ≤ 10 ^ Text.decimalLimit := Nat.pow_le_pow_right (by decide) (by decide)
  obtain ⟨first, hfirst, hback⟩ :=
    (parse_written_iff ⟨.sectioned, .onePass⟩).1 mixedText _ mixedFirst hparse (by simp) (by
    intro v hv
    obtain rfl : v = -31 := by simpa [mixedFirst, Line.operands] using hv
    exact hsmall)
  obtain ⟨second, hsecond, hnot⟩ :=
    (parse_written_iff ⟨.sectioned, .onePass⟩).1 mixedText _ mixedSecond hparse (by simp)
      (by simp [mixedSecond, Line.operands])
  obtain ⟨hquoted, -⟩ :=
    (parse_written_iff ⟨.sectioned, .onePass⟩).2 '"' (by decide) "a';\" b" (by decide)
  refine ⟨⟨first, hfirst, hback.2 (by simp [mixedFirst, Line.operands])⟩,
    ⟨second, hsecond, fun hread => ?_⟩, hquoted⟩
  have hten := (hnot.1 hread (.register 10) (by simp [mixedSecond, Line.operands])).1 10 rfl
  exact absurd hten (by decide)

end Source

end Assembler
