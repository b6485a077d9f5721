import Assembler.Proofs.OperandLanguage

/-! # The language of lines

The grammar of lines without strings, and the proof that lines are read exactly so
(`line_language`).  A comment is no part of it: the form is that of the text before the first
semicolon. -/

namespace Assembler.Grammar
open Reader
set_option autoImplicit false

variable {d : Dialect} {cs text rest body bs tl : List Char} {op : Operand}
  {ops operands : List Operand} {lab : Option String}

/-! ## The grammar -/

/-- Further operands, each behind a comma and blanks. -/
inductive FurtherText (d : Dialect) : List Char → List Operand → Prop
  | nil : FurtherText d [] []
  | cons {bs cs more : List Char} {op : Operand} {ops : List Operand} :
      Blanks bs → OperandText d cs op →
      FurtherText d more ops → FurtherText d (',' :: bs ++ cs ++ more) (op :: ops)

/-- Operands with commas between them, or none. -/
inductive OperandsText (d : Dialect) : List Char → List Operand → Prop
  | none : OperandsText d [] []
  | some {cs more : List Char} {op : Operand} {ops : List Operand} :
      OperandText d cs op → FurtherText d more ops →
      OperandsText d (cs ++ more) (op :: ops)

/-- A name and a colon, or nothing. -/
inductive LabelText : List Char → Option String → Prop
  | none : LabelText [] none
  | some {cs : List Char} : IsName cs → LabelText (cs ++ [':']) (some (String.ofList cs))

/-- The characters of a line: label, mnemonic and operands with blanks around.  The mnemonic is as
long as possible. -/
inductive LineText (d : Dialect) : List Char → Line → Prop
  | mk {b₁ name b₂ m b₃ ops b₄ : List Char} {label : Option String} {operands : List Operand} :
      Blanks b₁ →
      LabelText name label → Blanks b₂ → IsName m → Blanks b₃ → OperandsText d ops operands →
      Blanks b₄ →
      Ends isNameChar (b₃ ++ ops ++ b₄) →
      LineText d (b₁ ++ name ++ b₂ ++ m ++ b₃ ++ ops ++ b₄) ⟨label, ⟨String.ofList m, operands⟩⟩

/-! ## The end of a line -/

/-- Nothing, or what begins like a comment. -/
def IsComment (tl : List Char) : Prop := ∀ c ∈ tl.head?, c = ';'

theorem isComment_nil : IsComment [] := nofun

theorem IsComment.ends {isPart : Char → Bool} (h : IsComment tl) (hpart : isPart ';' = false) :
    Ends isPart tl := by
  intro c hc
  rw [h c hc]
  exact hpart

/-- What may be left behind a comment: nothing, or what begins with a line feed.  Without a comment
nothing is left. -/
def LeftBehind (tl rest : List Char) : Prop := Ends (fun c => c ≠ '\n') rest ∧ (tl = [] → rest = [])

theorem leftBehind_nil (tl : List Char) : LeftBehind tl [] := ⟨ends_nil _, fun _ => rfl⟩

theorem tail_finds : tail.Finds fun text _ rest => ∃ bs tl, text = bs ++ tl ∧ Blanks bs ∧
    IsComment tl ∧ '\n' ∉ tl ∧
    LeftBehind tl rest := by
  have hending : ending.Finds fun tl _ rest => IsComment tl ∧ '\n' ∉ tl ∧ LeftBehind tl rest := by
    refine Finds.mono finds_ending ?_
    rintro tl a rest ⟨rfl, rfl⟩
    exact ⟨isComment_nil, List.not_mem_nil, leftBehind_nil []⟩
  have hcomment : comment.Finds fun tl _ rest => IsComment tl ∧ '\n' ∉ tl ∧ LeftBehind tl rest := by
    refine Finds.named
      (Finds.mono
        (Finds.bind (finds_literal ";") fun _ => Finds.bind (finds_run _) fun _ => finds_pure _) ?_)
    rintro tl a rest ⟨s, t, _, rfl, rfl, s', t', _, rfl, ⟨rfl, hline, hrest⟩, rfl, -⟩
    refine ⟨fun c hc => ?_, fun hmem => ?_, hrest, nofun⟩
    · obtain rfl : ';' = c := by simpa using hc
      rfl
    · simpa using hline '\n' (by simpa using hmem)
  refine Finds.named (Finds.mono (Finds.bind blanks_finds fun _ => hending.orAtStart hcomment) ?_)
  rintro text a rest ⟨bs, tl, _, rfl, ⟨hbs, -⟩, htl, hline, hrest⟩
  exact ⟨bs, tl, rfl, hbs, htl, hline, hrest⟩

theorem tail_reads_before (hbs : Blanks bs) (htl : IsComment tl) (hline : '\n' ∉ tl)
    (hleft : LeftBehind tl rest) :
    tail.Reads (bs ++ tl) () rest := by
  cases tl with
  | nil =>
    obtain rfl := hleft.2 rfl
    exact Reads.named
      (Reads.bind (blanks_reads hbs (ends_nil _)) (orAtStart_ending_reads_nil comment))
  | cons c tl =>
    obtain rfl : c = ';' := htl c rfl
    have htext : ∀ c ∈ tl, decide (c ≠ '\n') = true :=
      fun c hc => decide_eq_true fun h => hline (h ▸ List.mem_cons_of_mem _ hc)
    have hrun := reads_run htext hleft.1
    have hcomment : comment.Reads (';' :: tl) () rest :=
      Reads.named
        (Reads.bind (s := [';']) (reads_literal ";" _) (Reads.bind_nil hrun (reads_pure () rest)))
    refine Reads.named (Reads.bind (blanks_reads hbs ?_) hcomment.orAtStart_ending)
    exact ends_cons.2 rfl

theorem tail_reads (hbs : Blanks bs) (htl : IsComment tl) (hline : '\n' ∉ tl) :
    tail.Reads (bs ++ tl) () [] :=
  tail_reads_before hbs htl hline (leftBehind_nil tl)

theorem tail_misses {c : Char} (hbs : Blanks bs) (hblank : Text.isBlank c = false) (hc : c ≠ ';') :
    tail.Misses (bs ++ c :: cs) := by
  refine Misses.named
    (Reads.bind_misses (blanks_reads hbs (ends_cons.2 hblank)) (Misses.orAtStart_ending ?_))
  refine Misses.named (Misses.bind (misses_literal ?_))
  rintro ⟨t, ht⟩
  exact hc (List.cons.inj ht).1.symm

/-! ## Operands and commas -/

/-- A comma and the blanks behind it. -/
def separator : Reader Unit := endingWith (literal ",") blanks

theorem separator_finds : separator.Finds fun text _ _ => ∃ bs, text = ',' :: bs ∧ Blanks bs := by
  refine Finds.mono ((finds_literal ",").endingWith blanks_finds) ?_
  rintro text a rest ⟨s, bs, _, rfl, rfl, hbs, -⟩
  exact ⟨bs, rfl, hbs⟩

theorem separator_reads (hbs : Blanks bs) (hrest : Ends Text.isBlank rest) :
    separator.Reads (',' :: bs) () rest :=
  Reads.endingWith (s := [',']) (reads_literal "," _) (blanks_reads hbs hrest)

theorem separator_misses (h : ∀ c ∈ cs.head?, c ≠ ',') : separator.Misses cs := by
  refine Misses.endingWith (misses_literal ?_)
  rintro ⟨t, rfl⟩
  exact h ',' rfl rfl

/-- Operands as they are found. -/
inductive OperandsFound (d : Dialect) : List Char → List Operand → List Char → Prop
  | none (rest : List Char) : OperandsFound d [] [] rest
  | some {cs more rest : List Char} {op : Operand} {ops : List Operand} :
      OperandFound d cs op (more ++ rest) →
      Items (OperandFound d) (fun s _ => ∃ bs, s = ',' :: bs ∧ Blanks bs) more ops rest →
      OperandsFound d (cs ++ more) (op :: ops) rest

theorem operands_finds (d : Dialect) :
    (separated (operand d) separator).Finds (OperandsFound d) := by
  refine Finds.mono ((operand_finds d).separated separator_finds) ?_
  rintro text ops rest (⟨rfl, rfl⟩ | ⟨cs, more, op, ops, rfl, rfl, hop, hmore⟩)
  · exact .none rest
  · exact .some hop (hmore.mono (fun _ _ _ h => h) fun s t ⟨_, h⟩ => h)

theorem isBlank_of_isOperandStart {c : Char} (h : isOperandStart c = true) :
    Text.isBlank c = false := by
  simp only [isOperandStart, Bool.or_eq_true, beq_iff_eq] at h
  obtain ((h | h) | rfl) | rfl := h
  · exact isBlank_of_isNameChar (isNameChar_of_isNameStart h)
  · exact isBlank_of_isNameChar (isNameChar_of_isDecimal h)
  · rfl
  · rfl

theorem OperandText.ends_blank (h : OperandText d cs op) (rest : List Char) :
    Ends Text.isBlank (cs ++ rest) := by
  obtain ⟨c, t, rfl, hc⟩ := h.head
  exact ends_cons.2 (isBlank_of_isOperandStart hc)

theorem FurtherText.follows (h : FurtherText d cs ops) (hrest : Follows rest) :
    Follows (cs ++ rest) := by
  cases h with
  | nil => exact hrest
  | cons =>
    intro c hc
    obtain rfl : ',' = c := by simpa using hc
    exact .inr (.inl rfl)

theorem FurtherText.items (h : FurtherText d cs ops) (hrest : Follows rest)
    (hlimit : DigitsBounded cs) :
    Items (operand d).Reads (fun s t => s ≠ [] ∧ ∃ u, separator.Reads s u t) cs ops rest := by
  induction h with
  | nil => exact .nil rest
  | @cons bs cs more op ops hbs hop hmore ih =>
    have hblank : Ends Text.isBlank (cs ++ more ++ rest) := by
      rw [List.append_assoc]
      exact hop.ends_blank _
    have hread :=
      operand_reads hop (hmore.follows hrest) (hlimit.of_infix ⟨',' :: bs, more, rfl⟩).limited
    exact .cons ⟨by simp, (), separator_reads hbs hblank⟩ hread
      (ih (hlimit.of_infix (List.suffix_append _ _).isInfix))

theorem follows_tail (hbs : Blanks bs) (htl : IsComment tl) :
    Follows (bs ++ tl) ∧ ∀ c ∈ (bs ++ tl).head?, c ≠ ',' := by
  cases bs with
  | nil =>
    refine ⟨fun c hc => .inr (.inr (htl c hc)), fun c hc => ?_⟩
    rw [htl c hc]
    decide
  | cons b bs =>
    have hb := hbs b List.mem_cons_self
    refine ⟨fun c hc => .inl ?_, fun c hc => ?_⟩
    all_goals obtain rfl : b = c := by simpa using hc
    · exact hb
    · rintro rfl
      cases hb

theorem follows_end (hbs : Blanks bs) (htl : IsComment tl) (hleft : LeftBehind tl rest) :
    Follows (bs ++ tl ++ rest) ∧ ∀ c ∈ (bs ++ tl ++ rest).head?, c ≠ ',' := by
  have htail := follows_tail hbs htl
  by_cases hnil : bs ++ tl = []
  · obtain ⟨rfl, rfl⟩ := List.append_eq_nil_iff.1 hnil
    obtain rfl := hleft.2 rfl
    exact htail
  · unfold Follows at htail ⊢
    rwa [List.head?_append_of_ne_nil _ hnil]

theorem LeftBehind.ends_blank (hleft : LeftBehind tl rest) (htl : IsComment tl) :
    Ends Text.isBlank (tl ++ rest) := by
  cases tl with
  | nil =>
    rw [hleft.2 rfl]
    exact ends_nil _
  | cons c tl =>
    rw [htl c rfl]
    exact ends_cons.2 rfl

/-- Where an operand could end and no blank stands, no operand begins. -/
theorem Follows.operand_misses (h : Follows rest) (hblank : Ends Text.isBlank rest) :
    (operand d).Misses rest := by
  refine Grammar.operand_misses fun c hc => ?_
  obtain hb | rfl | rfl := h c hc
  · rw [hblank c hc] at hb
    cases hb
  · rfl
  · rfl

theorem operands_reads (h : OperandsText d cs ops) (hlimit : DigitsBounded cs)
    (hfollows : Follows rest) (hcomma : ∀ c ∈ rest.head?, c ≠ ',')
    (hblank : Ends Text.isBlank (cs ++ rest)) :
    (separated (operand d) separator).Reads cs ops rest := by
  cases h with
  | none => exact Misses.separated (hfollows.operand_misses hblank)
  | some hop hmore =>
    exact reads_separated
      (operand_reads hop (hmore.follows hfollows)
        (hlimit.of_infix (List.prefix_append _ _).isInfix).limited)
          (hmore.items hfollows (hlimit.of_infix (List.suffix_append _ _).isInfix))
            (.inl (separator_misses hcomma))

/-! ## Labels and commands -/

theorem label_finds : (optional label).Finds fun text lab _ => LabelText text lab := by
  refine Finds.mono
    (Finds.optional (Finds.named (identifier_finds.endingWith (finds_literal ":")))) ?_
  rintro text lab rest (⟨rfl, rfl⟩ | ⟨_, rfl, cs, t, _, rfl, ⟨rfl, hname, -⟩, rfl⟩)
  · exact .none
  · exact .some hname

theorem label_misses (hname : IsName cs) (hends : Ends isNameChar rest)
    (hcolon : ∀ c ∈ rest.head?, c ≠ ':') :
    label.Misses (cs ++ rest) := by
  refine Misses.named ((identifier_reads hname hends).endingWith_misses (misses_literal ?_))
  rintro ⟨t, rfl⟩
  exact hcolon ':' rfl rfl

theorem IsName.ends_blank (h : IsName cs) (rest : List Char) : Ends Text.isBlank (cs ++ rest) := by
  obtain ⟨c, t, rfl, hc, -⟩ := h
  exact ends_cons.2 (isBlank_of_isNameChar (isNameChar_of_isNameStart hc))

theorem blanks_nil : Blanks [] := nofun

theorem Blanks.append (h : Blanks cs) (h' : Blanks bs) : Blanks (cs ++ bs) :=
  List.forall_mem_append.2 ⟨h, h'⟩

theorem front_reads {b₁ name b₂ : List Char} (hb₁ : Blanks b₁) (hlab : LabelText name lab)
    (hb₂ : Blanks b₂) (hbody : Ends Text.isBlank body) (hmiss : label.Misses body) :
    ∃ s t, b₁ ++ name ++ b₂ = s ++ t ∧
      blanks.Reads s () (t ++ body) ∧ (endingWith (optional label) blanks).Reads t lab body := by
  cases hlab with
  | none =>
    refine ⟨b₁ ++ b₂, [], by simp, blanks_reads (hb₁.append hb₂) hbody, ?_⟩
    exact Reads.endingWith (s := []) (t := []) hmiss.optional (blanks_reads blanks_nil hbody)
  | @some cs hname =>
    have hread : label.Reads (cs ++ [':']) (String.ofList cs) (b₂ ++ body) :=
      Reads.named
        (Reads.endingWith (identifier_reads hname (ends_cons.2 rfl)) (reads_literal ":" _))
    refine ⟨b₁, cs ++ [':'] ++ b₂, by simp, blanks_reads hb₁ ?_,
      hread.optional.endingWith (blanks_reads hb₂ hbody)⟩
    simp only [List.append_assoc]
    exact hname.ends_blank _

/-- A command as it is found. -/
inductive CommandFound (d : Dialect) : List Char → Command → List Char → Prop
  | mk {b₁ m b₂ cs rest : List Char} {ops : List Operand} : Blanks b₁ → IsName m → Blanks b₂ →
      Ends isNameChar (b₂ ++ cs ++ rest) → OperandsFound d cs ops rest →
      CommandFound d (b₁ ++ m ++ b₂ ++ cs) ⟨String.ofList m, ops⟩ rest

theorem command_finds (d : Dialect) : (command d).Finds (CommandFound d) := by
  refine Finds.named
    (Finds.mono
      (Finds.bind blanks_finds fun _ =>
        Finds.bind (identifier_finds.endingWith blanks_finds) fun m =>
    Finds.bind (operands_finds d) fun ops => Finds.bind (finds_ahead tail) fun _ =>
      finds_pure _) ?_)
  rintro text cmd rest ⟨b₁, t₁, _, rfl, ⟨hb₁, -⟩, s₂, t₂, _, rfl,
    ⟨m, b₂, _, rfl, ⟨rfl, hm, hends⟩, hb₂, -⟩, cs, t₃, ops, rfl, hops, s₄, t₄, _, rfl, rfl,
    rfl, rfl⟩
  have hfound : CommandFound d (b₁ ++ m ++ b₂ ++ cs) ⟨String.ofList m, ops⟩ rest :=
    .mk hb₁ hm hb₂ (by simpa using hends) (by simpa using hops)
  simpa using hfound

theorem command_reads {m b : List Char} (hm : IsName m) (hb : Blanks b)
    (hends : Ends isNameChar (b ++ cs ++ rest)) (hblank : Ends Text.isBlank (cs ++ rest))
    (hops : (separated (operand d) separator).Reads cs ops rest)
    (hahead : (ahead tail).Reads [] () rest) :
    (command d).Reads (m ++ b ++ cs) ⟨String.ofList m, ops⟩ rest := by
  rw [List.append_assoc] at hends
  have hfront : blanks.Reads [] () (m ++ b ++ cs ++ rest) := blanks_reads blanks_nil (by
    simp only [List.append_assoc]
    exact hm.ends_blank _)
  exact Reads.named
    (Reads.bind (s := []) hfront
      (Reads.bind ((identifier_reads hm hends).endingWith (blanks_reads hb hblank))
        (Reads.bind_nil hops (Reads.bind (s := []) hahead (reads_pure _ rest)))))

theorem command_misses {m b : List Char} (hm : IsName m) (hb : Blanks b)
    (hends : Ends isNameChar (b ++ cs ++ rest)) (hblank : Ends Text.isBlank (cs ++ rest))
    (hops : (separated (operand d) separator).Reads cs ops rest) (htail : tail.Misses rest) :
    (command d).Misses (m ++ b ++ cs ++ rest) := by
  rw [List.append_assoc] at hends
  have hfront : blanks.Reads [] () (m ++ b ++ (cs ++ rest)) := blanks_reads blanks_nil (by
    rw [List.append_assoc]
    exact hm.ends_blank _)
  have hmiss : (command d).Misses (m ++ b ++ (cs ++ rest)) :=
    Misses.named
      (Reads.bind_misses (s := []) hfront
        (Reads.bind_misses ((identifier_reads hm hends).endingWith (blanks_reads hb hblank))
          (Reads.bind_misses hops (Misses.bind htail.ahead))))
  rwa [← List.append_assoc] at hmiss

/-- A line with a command as it is found. -/
inductive LineFound (d : Dialect) : List Char → Line → List Char → Prop
  | mk {b₁ name b₂ cs b₃ tl rest : List Char} {lab : Option String} {cmd : Command} :
      Blanks b₁ → LabelText name lab → Blanks b₂ →
      CommandFound d cs cmd (b₃ ++ tl ++ rest) → Blanks b₃ → IsComment tl →
      Ends (fun c => c ≠ '\n') rest →
      (tl = [] → rest = []) → '\n' ∉ tl →
      LineFound d (b₁ ++ name ++ b₂ ++ cs ++ b₃ ++ tl) ⟨lab, cmd⟩ rest

theorem commandLine_finds (d : Dialect) : (commandLine d).Finds (LineFound d) := by
  refine Finds.named
    (Finds.mono
      (Finds.bind blanks_finds fun _ => Finds.bind (label_finds.endingWith blanks_finds) fun lab =>
    Finds.bind ((command_finds d).endingWith blanks_finds) fun cmd => Finds.bind tail_finds fun _ =>
      finds_pure _) ?_)
  rintro text l rest ⟨b₁, t₁, _, rfl, ⟨hb₁, -⟩, s₂, t₂, lab, rfl, ⟨name, b₂, _, rfl, hlab, hb₂, -⟩,
    s₃, t₃, cmd, rfl, ⟨cs, b₃, _, rfl, hcmd, hb₃, -⟩, s₄, t₄, _, rfl,
    ⟨b₄, tl, rfl, hb₄, htl, hline, hleft⟩, rfl, rfl⟩
  have hfound : LineFound d (b₁ ++ name ++ b₂ ++ cs ++ (b₃ ++ b₄) ++ tl) ⟨lab, cmd⟩ rest :=
    .mk hb₁ hlab hb₂ (by simpa using hcmd) (hb₃.append hb₄) htl hleft.1 hleft.2 hline
  simpa using hfound

theorem line_finds_end (d : Dialect) : (line d).Finds fun text read rest =>
    (read = none ∧ ∃ bs tl, text = bs ++ tl ∧ Blanks bs ∧ IsComment tl ∧ '\n' ∉ tl ∧
      LeftBehind tl rest) ∨
      ∃ l, read = some l ∧ LineFound d text l rest := by
  refine Finds.named
    (Finds.orElse (Finds.mono tail_finds.map ?_) (Finds.mono (commandLine_finds d).map ?_))
  · rintro text read rest ⟨_, rfl, htail⟩
    exact .inl ⟨rfl, htail⟩
  · rintro text read rest ⟨l, rfl, hfound⟩
    exact .inr ⟨l, rfl, hfound⟩

theorem line_finds (d : Dialect) : (line d).Finds fun text read rest =>
    (read = none ∧ ∃ bs tl, text = bs ++ tl ∧ Blanks bs ∧ IsComment tl ∧
      Ends (fun c => c ≠ '\n') rest) ∨
      ∃ l, read = some l ∧ LineFound d text l rest := by
  refine Finds.mono (line_finds_end d) ?_
  rintro text read rest (⟨rfl, bs, tl, htext, hbs, htl, -, hleft⟩ | hfound)
  · exact .inl ⟨rfl, bs, tl, htext, hbs, htl, hleft.1⟩
  · exact .inr hfound

theorem tail_misses_front {b₁ name b₂ m : List Char} (hb₁ : Blanks b₁) (hlab : LabelText name lab)
    (hb₂ : Blanks b₂) (hm : IsName m) (rest : List Char) :
    tail.Misses (b₁ ++ name ++ b₂ ++ (m ++ rest)) := by
  have hmiss : ∀ {bs cs more : List Char}, Blanks bs → IsName cs →
      tail.Misses (bs ++ (cs ++ more)) := by
    rintro bs cs more hbs ⟨c, t, rfl, hc, -⟩
    have hname := isNameChar_of_isNameStart hc
    exact tail_misses hbs (isBlank_of_isNameChar hname) (ne_of_isNameChar hname rfl)
  cases hlab with
  | none =>
    rw [List.append_nil]
    exact hmiss (hb₁.append hb₂) hm
  | some hname =>
    simp only [List.append_assoc]
    exact hmiss hb₁ hname

theorem line_reads_before {b₁ name b₂ m b₃ b₄ : List Char} (hb₁ : Blanks b₁)
    (hlab : LabelText name lab) (hb₂ : Blanks b₂) (hm : IsName m) (hb₃ : Blanks b₃)
    (hends : Ends isNameChar (b₃ ++ cs ++ (b₄ ++ tl ++ rest)))
    (hcolon : ∀ c ∈ (b₃ ++ cs ++ (b₄ ++ tl ++ rest)).head?, c ≠ ':')
    (hblank : Ends Text.isBlank (cs ++ (b₄ ++ tl ++ rest)))
    (hops : (separated (operand d) separator).Reads cs ops (b₄ ++ tl ++ rest)) (hb₄ : Blanks b₄)
    (htl : IsComment tl) (hline : '\n' ∉ tl) (hleft : LeftBehind tl rest) :
    (line d).Reads (b₁ ++ name ++ b₂ ++ (m ++ b₃ ++ cs ++ b₄ ++ tl))
      (some ⟨lab, ⟨String.ofList m, ops⟩⟩) rest := by
  have hcommand :=
    command_reads hm hb₃ hends hblank hops (tail_reads_before hb₄ htl hline hleft).ahead
  rw [List.append_assoc b₄] at hcommand
  have htail : tail.Reads tl () rest := tail_reads_before blanks_nil htl hline hleft
  have hbody := Reads.bind (f := fun cmd => tail >>= fun _ => pure (⟨lab, cmd⟩ : Line))
    (hcommand.endingWith (blanks_reads hb₄ (hleft.ends_blank htl)))
      (Reads.bind_nil htail (reads_pure _ rest))
  have hmiss : label.Misses (m ++ b₃ ++ cs ++ b₄ ++ tl ++ rest) := by
    have hmiss := label_misses hm hends hcolon
    simpa using hmiss
  have hname : Ends Text.isBlank (m ++ b₃ ++ cs ++ b₄ ++ tl ++ rest) := by
    simp only [List.append_assoc]
    exact hm.ends_blank _
  obtain ⟨s, t, hst, hs, ht⟩ := front_reads hb₁ hlab hb₂ hname hmiss
  rw [← List.append_assoc] at hs
  have hread :
      (commandLine d).Reads (s ++ (t ++ (m ++ b₃ ++ cs ++ b₄ ++ tl)))
        ⟨lab, ⟨String.ofList m, ops⟩⟩ rest :=
    Reads.named (Reads.bind hs (Reads.bind ht hbody))
  have hempty := tail_misses_front hb₁ hlab hb₂ hm (b₃ ++ cs ++ b₄ ++ tl ++ rest)
  rw [← List.append_assoc, ← hst] at hread
  exact Reads.named (Misses.orElse_reads (Misses.map (by simpa using hempty)) hread.map)

theorem line_reads {b₁ name b₂ m b₃ b₄ : List Char} (hb₁ : Blanks b₁) (hlab : LabelText name lab)
    (hb₂ : Blanks b₂) (hm : IsName m) (hb₃ : Blanks b₃)
    (hends : Ends isNameChar (b₃ ++ cs ++ (b₄ ++ tl)))
    (hcolon : ∀ c ∈ (b₃ ++ cs ++ (b₄ ++ tl)).head?, c ≠ ':')
    (hblank : Ends Text.isBlank (cs ++ (b₄ ++ tl)))
    (hops : (separated (operand d) separator).Reads cs ops (b₄ ++ tl)) (hb₄ : Blanks b₄)
    (htl : IsComment tl) (hline : '\n' ∉ tl) :
    (line d).Reads (b₁ ++ name ++ b₂ ++ (m ++ b₃ ++ cs ++ b₄ ++ tl))
      (some ⟨lab, ⟨String.ofList m, ops⟩⟩) [] := by
  rw [← List.append_nil (b₄ ++ tl)] at hends hcolon hblank hops
  exact line_reads_before hb₁ hlab hb₂ hm hb₃ hends hcolon hblank hops hb₄ htl hline
    (leftBehind_nil tl)

theorem line_misses {b₁ name b₂ m body : List Char} (hb₁ : Blanks b₁) (hlab : LabelText name lab)
    (hb₂ : Blanks b₂) (hm : IsName m) (hends : Ends isNameChar body)
    (hcolon : ∀ c ∈ body.head?, c ≠ ':') (hcommand : (command d).Misses (m ++ body)) :
    (line d).Misses (b₁ ++ name ++ b₂ ++ (m ++ body)) := by
  have hempty := tail_misses_front hb₁ hlab hb₂ hm body
  obtain ⟨s, t, hst, hs, ht⟩ :=
    front_reads hb₁ hlab hb₂ (hm.ends_blank body) (label_misses hm hends hcolon)
  have hline : (commandLine d).Misses (s ++ (t ++ (m ++ body))) :=
    Misses.named (Reads.bind_misses hs (Reads.bind_misses ht (Misses.bind hcommand.endingWith)))
  rw [← List.append_assoc, ← hst] at hline
  exact Misses.named (Misses.orElse hempty.map hline.map)

theorem OperandsText.start (h : OperandsText d cs ops) :
    ∀ c ∈ cs.head?, isOperandStart c = true := by
  cases h with
  | none => nofun
  | some hop =>
    obtain ⟨c, t, rfl, hc⟩ := hop.head
    intro x hx
    obtain rfl : c = x := by simpa using hx
    exact hc

theorem head_ne_colon {b₃ : List Char} (hb₃ : Blanks b₃)
    (hstart : ∀ c ∈ cs.head?, isOperandStart c = true) (hrest : Follows rest) :
    ∀ c ∈ (b₃ ++ cs ++ rest).head?, c ≠ ':' := by
  have hcolon : Ends (· == ':') (b₃ ++ cs ++ rest) := by
    refine Ends.append (Ends.append ?_ ?_) ?_
    · intro c hc
      have hblank := hb₃ c (List.mem_of_mem_head? hc)
      refine beq_false_of_ne ?_
      rintro rfl
      cases hblank
    · intro c hc
      refine beq_false_of_ne ?_
      rintro rfl
      cases hstart _ hc
    · intro c hc
      refine beq_false_of_ne (hrest.ne rfl (by decide) (by decide) c hc)
  exact fun c hc => ne_of_beq_false (hcolon c hc)

/-- A line whose operands are read before every end of a line. -/
theorem line_reads_end {b₁ name b₂ m b₃ b₄ : List Char} (hb₁ : Blanks b₁)
    (hlab : LabelText name lab) (hb₂ : Blanks b₂) (hm : IsName m) (hb₃ : Blanks b₃)
    (hends : Ends isNameChar (b₃ ++ cs)) (hstart : ∀ c ∈ cs.head?, isOperandStart c = true)
    (hops : ∀ rest, Follows rest → (∀ c ∈ rest.head?, c ≠ ',') → Ends Text.isBlank (cs ++ rest) →
      (separated (operand d) separator).Reads cs ops rest)
    (hb₄ : Blanks b₄) (htl : IsComment tl) (hline : '\n' ∉ tl) (hleft : LeftBehind tl rest) :
    (line d).Reads (b₁ ++ name ++ b₂ ++ (m ++ b₃ ++ cs ++ b₄ ++ tl))
      (some ⟨lab, ⟨String.ofList m, ops⟩⟩) rest := by
  obtain ⟨hfollows, hcomma⟩ := follows_end hb₄ htl hleft
  have hends := hends.append hfollows.not_nameChar
  have hcolon := head_ne_colon hb₃ hstart hfollows
  cases cs with
  | nil =>
    obtain ⟨hfollows, hcomma⟩ := follows_end blanks_nil htl hleft
    have hblank : Ends Text.isBlank ([] ++ ([] ++ tl ++ rest)) := hleft.ends_blank htl
    have hread :=
      line_reads_before hb₁ hlab hb₂ hm (hb₃.append hb₄) (by simpa using hends)
        (by simpa using hcolon) hblank (hops _ hfollows hcomma hblank) blanks_nil htl hline hleft
    simpa using hread
  | cons c cs =>
    have hblank : Ends Text.isBlank (c :: cs ++ (b₄ ++ tl ++ rest)) :=
      ends_cons.2 (isBlank_of_isOperandStart (hstart c rfl))
    exact line_reads_before hb₁ hlab hb₂ hm hb₃ hends hcolon hblank (hops _ hfollows hcomma hblank)
      hb₄ htl hline hleft

theorem LineText.reads {l : Line} (h : LineText d cs l) (htl : IsComment tl) (hline : '\n' ∉ tl)
    (hlimit : DigitsBounded cs) : (line d).Reads (cs ++ tl) (some l) [] := by
  obtain ⟨hb₁, hlab, hb₂, hm, hb₃, hops, hb₄, hends⟩ := h
  next b₁ name b₂ m b₃ ops b₄ lab operands =>
  have hread := line_reads_end hb₁ hlab hb₂ hm hb₃ hends.left hops.start
    (fun rest => operands_reads hops (hlimit.of_infix ⟨b₁ ++ name ++ b₂ ++ m ++ b₃, b₄, by simp⟩))
      hb₄ htl hline (leftBehind_nil tl)
  simpa using hread

/-! ## Lines without strings -/

theorem OperandText.chars (h : OperandText d cs op) : ∀ c ∈ cs, isNameChar c = true ∨ c = '@' ∨
    c = '-' := by
  cases h with
  | name h => exact fun c hc => .inl (h.nameChars c hc)
  | relative _ h =>
    exact List.forall_mem_cons.2 ⟨.inr (.inl rfl), fun c hc => .inl (h.nameChars c hc)⟩
  | number h =>
    obtain ⟨sign, hcs⟩ := h
    refine List.forall_mem_append.2 ⟨?_, fun c hc => .inl (hcs.nameChars c hc)⟩
    cases sign with
    | none => exact nofun
    | some u => exact List.forall_mem_singleton.2 (.inr (.inr rfl))
  | @minusZero r ds hr hds =>
    have hletter := isNameChar_of_isNameStart (isNameStart_of_letter hr)
    refine List.forall_mem_cons.2
      ⟨.inl hletter, List.forall_mem_cons.2 ⟨.inr (.inr rfl), fun c hc => .inl ?_⟩⟩
    rw [beq_iff_eq.1 (hds.2 c hc)]
    rfl

theorem OperandText.no_semicolon (h : OperandText d cs op) : ';' ∉ cs := by
  intro hmem
  obtain hname | hat | hminus := h.chars ';' hmem
  · cases hname
  · exact absurd hat (by decide)
  · exact absurd hminus (by decide)

theorem IsName.no_semicolon (h : IsName cs) : ';' ∉ cs := by
  intro hmem
  cases h.nameChars ';' hmem

theorem Blanks.no_semicolon (h : Blanks cs) : ';' ∉ cs := by
  intro hmem
  cases h ';' hmem

theorem FurtherText.no_semicolon (h : FurtherText d cs ops) : ';' ∉ cs := by
  induction h with
  | nil => simp
  | cons hbs hop _ ih => simp [hbs.no_semicolon, hop.no_semicolon, ih]

theorem OperandsText.no_semicolon (h : OperandsText d cs ops) : ';' ∉ cs := by
  cases h with
  | none => simp
  | some hop hmore => simp [hop.no_semicolon, hmore.no_semicolon]

theorem LabelText.no_semicolon (h : LabelText cs lab) : ';' ∉ cs := by
  cases h with
  | none => simp
  | some hname => simp [hname.no_semicolon]

theorem LineText.no_semicolon {l : Line} (h : LineText d cs l) : ';' ∉ cs := by
  obtain ⟨hb₁, hlab, hb₂, hm, hb₃, hops, hb₄, -⟩ := h
  simp [hb₁.no_semicolon, hlab.no_semicolon, hb₂.no_semicolon, hm.no_semicolon, hb₃.no_semicolon,
    hops.no_semicolon, hb₄.no_semicolon]

theorem OperandFound.operandText (h : OperandFound d text op rest)
    (hquotes : ∀ q ∈ quotes, q ∉ text) :
    OperandText d text op := by
  obtain ⟨h, -⟩ | h := h
  · exact h
  · cases h with
    | hex hq => exact absurd (by simp) (hquotes _ hq)
    | chars hq => exact absurd (by simp) (hquotes _ hq)

theorem furtherText_of_items
    (h : Items (OperandFound d) (fun s _ => ∃ bs, s = ',' :: bs ∧ Blanks bs) text ops rest)
    (hquotes : ∀ q ∈ quotes, q ∉ text) : FurtherText d text ops := by
  induction h with
  | nil => exact .nil
  | @cons sep text more rest op ops hsep hop hmore ih =>
    obtain ⟨bs, rfl, hbs⟩ := hsep
    have hparts : ∀ q ∈ quotes, q ∉ text ∧ q ∉ more := by
      intro q hq
      have hnot := hquotes q hq
      simp only [List.mem_append, not_or] at hnot
      exact ⟨hnot.1.2, hnot.2⟩
    exact .cons hbs (hop.operandText fun q hq => (hparts q hq).1) (ih fun q hq => (hparts q hq).2)

theorem OperandsFound.operandsText (h : OperandsFound d text ops rest)
    (hquotes : ∀ q ∈ quotes, q ∉ text) :
    OperandsText d text ops := by
  cases h with
  | none => exact .none
  | some hop hmore =>
    have hparts : ∀ q ∈ quotes, q ∉ _ ∧ q ∉ _ := fun q hq => by simpa [not_or] using hquotes q hq
    exact .some (hop.operandText fun q hq => (hparts q hq).1)
      (furtherText_of_items hmore fun q hq => (hparts q hq).2)

theorem LineFound.lineText {l : Line} (h : LineFound d text l rest)
    (hquotes : ∀ q ∈ quotes, q ∉ text) :
    ∃ cs tl, text = cs ++ tl ∧ LineText d cs l ∧ IsComment tl := by
  obtain ⟨hb₁, hlab, hb₂, ⟨hb, hm, hb', hends, hops⟩, hb₃, htl, -⟩ := h
  have hops := hops.operandsText fun q hq hmem => hquotes q hq (by simp [hmem])
  refine ⟨_, _, rfl, ?_, htl⟩
  have hends : Ends isNameChar (_ ++ _ ++ _) := Ends.left (by simpa using hends)
  have hline := LineText.mk hb₁ hlab (hb₂.append hb) hm hb' hops hb₃ hends
  simpa using hline

/-- The part of a line before a comment. -/
def beforeComment (cs : List Char) : List Char := cs.takeWhile (· ≠ ';')

theorem beforeComment_append (hcs : ';' ∉ cs) (htl : IsComment tl) :
    beforeComment (cs ++ tl) = cs := by
  refine (takeWhile_append_of_ends (fun c hc => ?_) (htl.ends rfl)).1
  exact decide_eq_true fun h => hcs (h ▸ hc)

/-- Which lines are read, and as what: the text before a comment is blank, or of the form of a
line. -/
theorem line_language (d : Dialect) {t : String} (hline : '\n' ∉ t.toList)
    (hquotes : ∀ q ∈ quotes, q ∉ t.toList) (hlimit : DigitsBounded t.toList) (read : Option Line)
    (rest : List Char) :
    readFront (line d) t = .ok (read, rest) ↔ rest = [] ∧
      ((Blanks (beforeComment t.toList) ∧ read = none) ∨
      ∃ l, LineText d (beforeComment t.toList) l ∧ read = some l) := by
  constructor
  · intro hread
    obtain ⟨text, htext, hfound⟩ := (line_finds d).readFront hread
    have hnil : Ends (fun c => c ≠ '\n') rest → rest = [] := by
      intro hends
      cases rest with
      | nil => rfl
      | cons c rest =>
        obtain rfl : c = '\n' := by simpa using ends_cons.1 hends
        exact absurd (by simp [htext]) hline
    obtain ⟨rfl, bs, tl, rfl, hbs, htl, hrest⟩ | ⟨l, rfl, hfound⟩ := hfound
    · obtain rfl := hnil hrest
      rw [htext, List.append_nil, beforeComment_append hbs.no_semicolon htl]
      exact ⟨rfl, .inl ⟨hbs, rfl⟩⟩
    · obtain rfl := hnil (by cases hfound; assumption)
      obtain ⟨cs, tl, rfl, hcs, htl⟩ :=
        hfound.lineText fun q hq hmem => hquotes q hq (by simp [htext, hmem])
      rw [htext, List.append_nil, beforeComment_append hcs.no_semicolon htl]
      exact ⟨rfl, .inr ⟨l, hcs, rfl⟩⟩
  · rintro ⟨rfl, h⟩
    obtain ⟨tl, htext, htl⟩ : ∃ tl, t.toList = beforeComment t.toList ++ tl ∧ IsComment tl := by
      refine ⟨_, (List.takeWhile_append_dropWhile (p := (· ≠ ';'))).symm, fun c hc => ?_⟩
      simpa using ends_dropWhile _ _ c hc
    have hnewline : '\n' ∉ tl := fun hmem => hline (by rw [htext]; simp [hmem])
    obtain ⟨hbs, rfl⟩ | ⟨l, hl, rfl⟩ := h
    · have hread : (line d).Reads (beforeComment t.toList ++ tl) none [] :=
        Reads.named (Reads.orElse (Reads.map (tail_reads hbs htl hnewline)))
      exact hread.readFront (by rw [List.append_nil, ← htext])
    · have hread := hl.reads htl hnewline (hlimit.of_infix (List.takeWhile_prefix _).isInfix)
      exact hread.readFront (by rw [List.append_nil, ← htext])

/-- A line in which nothing stands apart that need not. -/
def crowdedLine : String := "_a1:JMP@x, r-00,-0x1F,R16,r07,R7a ;: @"

/-- The crowded line is of the form of a line. -/
theorem crowdedLine_form : LineText ⟨.relocatable, .twoPass⟩ (beforeComment crowdedLine.toList)
    ⟨some "_a1",
      ⟨"JMP", [.relative "x", .register 0, .number (-31), .direct "R16", .register 7,
        .direct "R7a"]⟩⟩ := by
  have hlimit : DigitsBounded crowdedLine.toList := fun ds hds _ => hds.length_le.trans (by decide)
  have hquotes : ∀ q ∈ quotes, q ∉ crowdedLine.toList := by
    intro q hq
    obtain rfl | rfl := eq_of_mem_quotes hq <;> decide
  obtain ⟨-, ⟨-, hnone⟩ | ⟨l, hl, hread⟩⟩ :=
    (line_language ⟨.relocatable, .twoPass⟩ (by decide) hquotes hlimit
      (some ⟨some "_a1",
        ⟨"JMP", [.relative "x", .register 0, .number (-31), .direct "R16", .register 7,
          .direct "R7a"]⟩⟩) []).1
    (by decide +kernel)
  · cases hnone
  · rw [Option.some.inj hread]
    exact hl

end Assembler.Grammar
