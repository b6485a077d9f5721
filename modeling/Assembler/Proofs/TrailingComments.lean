import Assembler.Proofs.ClosedStrings
import Assembler.Proofs.LineLanguage

/-! # Comments behind a line

A comment may follow every line that is read (`line_with_comment`): it changes nothing unless the
line ends in a string of characters.  Such a string reaches for the last quote of the text, so what
follows it decides where it closes: the comment is without effect just if the string had none yet
and neither its quote nor a semicolon stands in it. -/

namespace Assembler.Grammar
open Reader
set_option autoImplicit false

variable {d : Dialect} {cs text rest bs tl left u front : List Char} {op : Operand}
  {ops : List Operand} {q : Char} {j k : Nat}
variable {isPart : Char → Bool}

/-! ## Where the string closes before a comment -/

theorem semicolon_at (rest u : List Char) :
    (rest ++ ' ' :: ';' :: u)[rest.length + 1]? = some ';' := by
  rw [List.getElem?_append_right (by omega), Nat.add_sub_cancel_left]
  rfl

theorem closesAt_comment (hq : q ∈ quotes) (h : ClosesAt q rest k)
    (hblanks : Blanks (rest.drop (k + 1))) (hquote : q ∉ u) (hsemicolon : ';' ∉ u) :
    ClosesAt q (rest ++ ' ' :: ';' :: u) k := by
  have hrest : rest ++ ' ' :: ';' :: u = (rest ++ [' ']) ++ ';' :: u := by simp
  have htake : (rest ++ ' ' :: ';' :: u).take (rest ++ [' ']).length = rest ++ [' '] := by
    rw [hrest, List.take_left]
  refine .commented (j := (rest ++ [' ']).length) ?_ ?_
  · rw [hrest]
    refine lastAt_append (by simp [isMark]) fun x hx => ?_
    have hne : x ≠ q ∧ x ≠ ';' := ⟨fun heq => hquote (heq ▸ hx), fun heq => hsemicolon (heq ▸ hx)⟩
    simp [isMark, hne]
  · rw [htake, split_of_getElem? h.getElem?, List.append_assoc, List.cons_append]
    have hlast :
        LastAt isInk (rest.take k ++ q :: (rest.drop (k + 1) ++ [' '])) (rest.take k).length q := by
      refine lastAt_append (isInk_of_quote hq) fun x hx => ?_
      obtain hx | hx := List.mem_append.1 hx
      · simp [isInk, hblanks x hx]
      · obtain rfl := List.mem_singleton.1 hx
        rfl
    rwa [List.length_take, Nat.min_eq_left (Nat.le_of_lt h.lt)] at hlast

theorem of_closesAt_comment (hk : k < rest.length) (h : ClosesAt q (rest ++ ' ' :: ';' :: u) k) :
    Blanks (rest.drop (k + 1)) ∧ q ∉ u ∧ ';' ∉ u := by
  cases h with
  | bare hlast =>
    have hle := hlast.le (semicolon_at rest u) (by simp [isMark])
    omega
  | @commented j _ hlast hink =>
    have hle := hlast.le (semicolon_at rest u) (by simp [isMark])
    obtain rfl : j = rest.length + 1 := by
      by_contra hne
      have hhere : ((rest ++ ' ' :: ';' :: u).take j)[rest.length + 1]? = some ';' := by
        rw [List.getElem?_take_of_lt (by omega), semicolon_at]
      have hink' := hink.le hhere rfl
      omega
    have htake : (rest ++ ' ' :: ';' :: u).take (rest.length + 1) = rest ++ [' '] := by
      rw [List.take_length_add_append]
      rfl
    have hdrop : (rest ++ ' ' :: ';' :: u).drop (rest.length + 1 + 1) = u := by
      rw [Nat.add_assoc, List.drop_length_add_append]
      rfl
    have hafter := hlast.after
    rw [hdrop] at hafter
    refine ⟨fun x hx => ?_, fun hmem => ?_, fun hmem => ?_⟩
    · have hblank :=
        hink.after x
          (by rw [htake, List.drop_append_of_le_length hk]; exact List.mem_append_left _ hx)
      simpa [isInk] using hblank
    · simpa [isMark] using hafter q hmem
    · simpa [isMark] using hafter ';' hmem

theorem closes_same_iff (hq : q ∈ quotes) (h : ClosesAt q rest k) :
    (∃ i, ClosesAt q (rest ++ ' ' :: ';' :: u) i ∧ (rest ++ ' ' :: ';' :: u).take i = rest.take k) ↔
      Blanks (rest.drop (k + 1)) ∧ q ∉ u ∧ ';' ∉ u := by
  constructor
  · rintro ⟨i, hcloses, htake⟩
    have hi := hcloses.lt
    have hk := h.lt
    obtain rfl : i = k := by
      have hlength := congrArg List.length htake
      rw [List.length_take, List.length_take] at hlength
      omega
    exact of_closesAt_comment hk hcloses
  · rintro ⟨hblanks, hquote, hsemicolon⟩
    refine ⟨k, closesAt_comment hq h hblanks hquote hsemicolon, ?_⟩
    rw [List.take_append_of_le_length (Nat.le_of_lt h.lt)]

/-! ## Operands before another rest -/

theorem OperandText.ne_chars (h : OperandText d cs op) (s : String) : op ≠ .chars s := by
  cases h with
  | name =>
    unfold nameOperand
    split <;> nofun
  | _ => nofun

theorem OperandFound.head (h : OperandFound d text op rest) :
    ∃ c t, text = c :: t ∧ isOperandStart c = true := by
  obtain ⟨hop, -⟩ | hstring := h
  · exact hop.head
  · cases hstring with
    | hex => exact ⟨'x', _, rfl, rfl⟩
    | chars => exact ⟨'c', _, rfl, rfl⟩

theorem OperandFound.reads_or_chars (h : OperandFound d text op rest) :
    ((∀ s, op ≠ .chars s) ∧ ∀ rest', Follows rest' → (operand d).Reads text op rest') ∨
    rest = [] ∧ ∃ q ∈ quotes, ∃ all k, text = 'c' :: q :: all ∧ ClosesAt q all k ∧
    op = .chars (String.ofList (all.take k)) := by
  obtain ⟨hop, hlimit⟩ | hstring := h
  · exact .inl ⟨hop.ne_chars, fun rest' hrest => operand_reads hop hrest hlimit⟩
  · cases hstring with
    | @hex q ds _ hq hds =>
      refine .inl ⟨nofun, fun rest' _ => operand_reads_constant (Reads.orElse ?_)⟩
      exact (string_misses (.inl rfl) _).orElse_reads (hexString_reads hq hds rest')
    | @chars q all back hq hclosed =>
      obtain ⟨k, hcloses, rfl⟩ := (closedChars_reverse_eq_some_iff hq).1 hclosed
      exact .inr ⟨rfl, q, hq, all, k, rfl, hcloses, by rw [List.reverse_reverse]⟩

/-- Operands behind commas, as the reader of operands meets them. -/
abbrev FurtherRead (d : Dialect) : List Char → List Operand → List Char → Prop :=
  Items (operand d).Reads fun s t => s ≠ [] ∧ ∃ a, separator.Reads s a t

/-- Operands of which the last is a string of characters.  In its place another operand may be
read. -/
inductive CharsLast (d : Dialect) (R : List Char → List Operand → List Char → Prop) :
    List Char → List Operand → Prop
  | mk {front all : List Char} {q : Char} {k : Nat} {ops : List Operand} :
      q ∈ quotes → ClosesAt q all k →
      (∀ last op rest, (operand d).Reads ('c' :: last) op rest →
        R (front ++ 'c' :: last) (ops ++ [op]) rest) →
      CharsLast d R (front ++ 'c' :: q :: all) (ops ++ [.chars (String.ofList (all.take k))])

theorem CharsLast.append {R R' : List Char → List Operand → List Char → Prop}
    (h : CharsLast d R text ops) (before : List Char) (others : List Operand)
    (hR : ∀ text ops rest, R text ops rest → R' (before ++ text) (others ++ ops) rest) :
    CharsLast d R' (before ++ text) (others ++ ops) := by
  obtain ⟨hq, hcloses, hread⟩ := h
  next front all q k ops =>
  rw [← List.append_assoc, ← List.append_assoc]
  refine .mk hq hcloses fun last op rest hop => ?_
  rw [List.append_assoc, List.append_assoc]
  exact hR _ _ _ (hread last op rest hop)

theorem no_further
    (h : Items (OperandFound d) (fun s _ => ∃ bs, s = ',' :: bs ∧ Blanks bs) text ops rest)
    (hnil : text = []) :
    ops = [] := by
  cases h with
  | nil => rfl
  | cons hsep =>
    obtain ⟨bs, rfl, -⟩ := hsep
    cases hnil

theorem not_chars_cons (hop : ∀ s, op ≠ .chars s) (hops : ∀ s, .chars s ∉ ops) :
    ∀ s, .chars s ∉ op :: ops := by
  intro s hs
  obtain heq | hs := List.mem_cons.1 hs
  · exact hop s heq.symm
  · exact hops s hs

theorem further_reread
    (h : Items (OperandFound d) (fun s _ => ∃ bs, s = ',' :: bs ∧ Blanks bs) text ops rest) :
    ((∀ s, .chars s ∉ ops) ∧ ∀ rest', Follows rest' → Follows (text ++ rest') ∧
      FurtherRead d text ops rest') ∨
    rest = [] ∧
    CharsLast d (fun text ops rest => Follows (text ++ rest) ∧ FurtherRead d text ops rest) text
      ops := by
  induction h with
  | nil rest => exact .inl ⟨fun s => List.not_mem_nil, fun rest' hrest => ⟨hrest, .nil rest'⟩⟩
  | @cons _ text more rest op ops hsep hop hmore ih =>
    obtain ⟨bs, rfl, hbs⟩ := hsep
    have hcomma : ∀ cs, Follows (',' :: cs) := by
      intro cs c hc
      obtain rfl : ',' = c := by simpa using hc
      exact .inr (.inl rfl)
    have hcons : ∀ text more op ops rest', (∃ c t, text = c :: t ∧ isOperandStart c = true) →
        (operand d).Reads text op (more ++ rest') → FurtherRead d more ops rest' →
        FurtherRead d (',' :: bs ++ text ++ more) (op :: ops) rest' := by
      rintro _ more op ops rest' ⟨c, t, rfl, hc⟩ hread hitems
      exact .cons ⟨by simp, (), separator_reads hbs (ends_cons.2 (isBlank_of_isOperandStart hc))⟩
        hread hitems
    obtain ⟨hne, hreads⟩ | ⟨hrest, q, hq, all, k, rfl, hcloses, rfl⟩ := hop.reads_or_chars
    · obtain ⟨hnone, hlater⟩ | ⟨rfl, hlast⟩ := ih
      · refine .inl ⟨not_chars_cons hne hnone, fun rest' hrest => ⟨hcomma _, ?_⟩⟩
        obtain ⟨hfollows, hitems⟩ := hlater rest' hrest
        exact hcons text more op ops rest' hop.head (hreads _ hfollows) hitems
      · refine .inr ⟨rfl, hlast.append (',' :: bs ++ text) [op] ?_⟩
        rintro more ops rest' ⟨hfollows, hitems⟩
        exact ⟨hcomma _, hcons text more op ops rest' hop.head (hreads _ hfollows) hitems⟩
    · obtain ⟨rfl, rfl⟩ := List.append_eq_nil_iff.1 hrest
      obtain rfl := no_further hmore rfl
      refine .inr ⟨rfl, ?_⟩
      rw [List.append_nil]
      refine @CharsLast.mk d _ (',' :: bs) all q k [] hq hcloses fun last op rest' hread =>
        ⟨hcomma _, ?_⟩
      have hitems := hcons ('c' :: last) [] op [] rest' ⟨'c', last, rfl, rfl⟩ hread (.nil rest')
      rwa [List.append_nil] at hitems

theorem noItem_of_head (h : ∀ c ∈ rest.head?, c ≠ ',') : NoItem (operand d) separator rest :=
  .inl (separator_misses h)

/-- Operands are read again before every end of a line, unless the last is a string of
characters. -/
theorem OperandsFound.reread (h : OperandsFound d cs ops rest) :
    ((∀ s, .chars s ∉ ops) ∧ ∀ rest', Follows rest' → (∀ c ∈ rest'.head?, c ≠ ',') →
      Ends Text.isBlank (cs ++ rest') →
      (separated (operand d) separator).Reads cs ops rest') ∨
    rest = [] ∧
    CharsLast d (fun cs ops rest => (∀ c ∈ rest.head?, c ≠ ',') →
      (separated (operand d) separator).Reads cs ops rest)
      cs ops := by
  cases h with
  | none =>
    exact .inl
      ⟨fun s => List.not_mem_nil,
        fun rest' hrest _ hblank => Misses.separated (hrest.operand_misses hblank)⟩
  | @some cs more _ op ops hop hmore =>
    obtain ⟨hne, hreads⟩ | ⟨hrest, q, hq, all, k, rfl, hcloses, rfl⟩ := hop.reads_or_chars
    · obtain ⟨hnone, hlater⟩ | ⟨rfl, hlast⟩ := further_reread hmore
      · refine .inl ⟨not_chars_cons hne hnone, fun rest' hrest hcomma _ => ?_⟩
        obtain ⟨hfollows, hitems⟩ := hlater rest' hrest
        exact reads_separated (hreads _ hfollows) hitems (noItem_of_head hcomma)
      · refine .inr ⟨rfl, hlast.append cs [op] ?_⟩
        rintro more ops rest' ⟨hfollows, hitems⟩ hcomma
        exact reads_separated (hreads _ hfollows) hitems (noItem_of_head hcomma)
    · obtain ⟨rfl, rfl⟩ := List.append_eq_nil_iff.1 hrest
      obtain rfl := no_further hmore rfl
      refine .inr ⟨rfl, ?_⟩
      rw [List.append_nil]
      refine @CharsLast.mk d _ [] all q k [] hq hcloses fun last op rest' hread hcomma => ?_
      have hitems : (separated (operand d) separator).Reads ('c' :: last ++ []) [op] rest' :=
        reads_separated hread (.nil rest') (noItem_of_head hcomma)
      rwa [List.append_nil] at hitems

theorem OperandsFound.start (h : OperandsFound d cs ops rest) :
    ∀ c ∈ cs.head?, isOperandStart c = true := by
  cases h with
  | none => nofun
  | some hop =>
    obtain ⟨c, t, rfl, hc⟩ := hop.head
    intro x hx
    obtain rfl : c = x := by simpa using hx
    exact hc

/-! ## Lines before a comment -/

theorem tail_with_comment (hbs : Blanks bs) (htl : IsComment tl) (hline : '\n' ∉ tl)
    (hleft : LeftBehind tl left) (hu : '\n' ∉ u) :
    ∃ bs' tl' left', bs ++ tl ++ left ++ ' ' :: ';' :: u = bs' ++ tl' ++ left' ∧ Blanks bs' ∧
      IsComment tl' ∧
      '\n' ∉ tl' ∧ LeftBehind tl' left' := by
  cases tl with
  | nil =>
    obtain rfl := hleft.2 rfl
    refine ⟨bs ++ [' '], ';' :: u, [], by simp, hbs.append (List.forall_mem_singleton.2 rfl),
      ?_, by simpa using hu, leftBehind_nil _⟩
    intro c hc
    exact (Option.some.inj hc).symm
  | cons c tl =>
    cases left with
    | nil =>
      refine ⟨bs, c :: tl ++ ' ' :: ';' :: u, [], by simp, hbs, htl, fun hmem => ?_,
        leftBehind_nil _⟩
      obtain hmem | hmem := List.mem_append.1 hmem
      · exact hline hmem
      · exact hu (by simpa using hmem)
    | cons x left =>
      refine ⟨bs, c :: tl, x :: left ++ ' ' :: ';' :: u, by simp, hbs, htl, hline, ?_, nofun⟩
      exact ends_cons.2 (ends_cons.1 hleft.1)

/-- A line that ends in a string of characters: it is read just if the string closes, and the string
is what comes last. -/
structure StringLine (d : Dialect) (front : List Char) (q : Char) (l : Operand → Line) : Prop where
  reads : ∀ {rest k}, ClosesAt q rest k →
    (line d).Reads (front ++ 'c' :: q :: rest) (some (l (.chars (String.ofList (rest.take k))))) []
  misses : ∀ {rest}, (∀ k, ¬ClosesAt q rest k) → (line d).Misses (front ++ 'c' :: q :: rest)

theorem head?_append_cons (cs text : List Char) (c : Char) :
    (cs ++ c :: text).head? = (cs ++ [c]).head? := by
  cases cs <;> rfl

theorem stringLine {b₁ name b₂ m b₃ all : List Char} {lab : Option String} (hb₁ : Blanks b₁)
    (hlab : LabelText name lab) (hb₂ : Blanks b₂) (hm : IsName m) (hb₃ : Blanks b₃)
    (hends : Ends isNameChar (b₃ ++ (front ++ 'c' :: all)))
    (hstart : ∀ c ∈ (front ++ 'c' :: all).head?, isOperandStart c = true) (hq : q ∈ quotes)
    (hops : ∀ last op rest, (operand d).Reads ('c' :: last) op rest → (∀ c ∈ rest.head?, c ≠ ',') →
      (separated (operand d) separator).Reads (front ++ 'c' :: last) (ops ++ [op]) rest) :
    StringLine d (b₁ ++ name ++ b₂ ++ (m ++ b₃ ++ front)) q fun op =>
      ⟨lab, ⟨String.ofList m, ops ++ [op]⟩⟩ := by
  have hstart' : ∀ last, ∀ c ∈ (front ++ 'c' :: last).head?, isOperandStart c = true := by
    intro last
    rwa [head?_append_cons] at hstart ⊢
  have hends' : ∀ last, Ends isNameChar (b₃ ++ (front ++ 'c' :: last)) := by
    intro last
    unfold Ends at hends ⊢
    rwa [← List.append_assoc, head?_append_cons] at hends ⊢
  have hblank : ∀ last rest, Ends Text.isBlank (front ++ 'c' :: last ++ rest) := by
    intro last rest c hc
    rw [List.append_assoc, List.cons_append] at hc
    exact isBlank_of_isOperandStart (hstart' _ c hc)
  constructor
  · intro rest k hcloses
    have hop := closed_operand_reads (d := d) hq (hcloses.closedChars hq)
    rw [List.reverse_reverse] at hop
    have hcolon := head_ne_colon hb₃ (hstart' (q :: rest)) (nofun : Follows [])
    have hread :=
      line_reads hb₁ hlab hb₂ hm hb₃ (by simpa using hends' (q :: rest)) hcolon
        (hblank (q :: rest) []) (hops _ _ _ hop (by simp)) blanks_nil isComment_nil List.not_mem_nil
    simpa using hread
  · intro rest hopen
    have hquote : Text.isBlank q = false ∧ q ≠ ';' ∧ q ≠ ',' := by
      obtain rfl | rfl := eq_of_mem_quotes hq <;> decide
    have hop := unclosed_operand_reads (d := d) hq (closedChars_eq_none hq hopen)
    have hread := hops [] _ _ hop (by simpa using hquote.2.2)
    have htail : tail.Misses (q :: rest) := tail_misses blanks_nil hquote.1 hquote.2.1
    have hcommand :=
      command_misses hm hb₃ (by simpa using hends' (q :: rest)) (hblank [] (q :: rest)) hread htail
    have hcolon := head_ne_colon hb₃ (hstart' (q :: rest)) (nofun : Follows [])
    have hmiss :=
      line_misses hb₁ hlab hb₂ hm (hends' (q :: rest)) (by simpa using hcolon)
        (by simpa using hcommand)
    simpa using hmiss

/-- A line with a command is read again before every end of a line, unless it ends in a string of
characters. -/
theorem LineFound.reread {l : Line} (h : LineFound d text l rest) :
    ((∀ s, .chars s ∉ l.operands) ∧ ∀ u, '\n' ∉ u →
      ∃ text' rest', text ++ rest ++ ' ' :: ';' :: u = text' ++ rest' ∧
      (line d).Reads text' (some l) rest') ∨
    rest = [] ∧ ∃ front q all k label mnemonic ops, q ∈ quotes ∧ text = front ++ 'c' :: q :: all ∧
    ClosesAt q all k ∧
      l = ⟨label, ⟨mnemonic, ops ++ [.chars (String.ofList (all.take k))]⟩⟩ ∧
      StringLine d front q fun op => ⟨label, ⟨mnemonic, ops ++ [op]⟩⟩ := by
  obtain ⟨hb₁, hlab, hb₂, hcmd, hb₃, htl, hrest, hnone, hline⟩ := h
  next b₁ name b₂ _ b₃ tl lab _ =>
  obtain ⟨hb₁', hm, hb₂', hends, hops⟩ := hcmd
  next b₁' m b₂' cs ops =>
  have hstart := hops.start
  obtain ⟨hchars, hreads⟩ | ⟨hnil, hlast⟩ := hops.reread
  · refine .inl ⟨hchars, fun u hu => ?_⟩
    obtain ⟨bs, tl', left, htext, hbs, htl', hline', hleft⟩ :=
      tail_with_comment hb₃ htl hline ⟨hrest, hnone⟩ hu
    refine ⟨_, left, ?_,
      line_reads_end hb₁ hlab (hb₂.append hb₁') hm hb₂' hends.left hstart hreads hbs htl'
        hline' hleft⟩
    simp only [List.append_assoc] at htext ⊢
    rw [htext]
  · obtain ⟨hnil', rfl⟩ := List.append_eq_nil_iff.1 hnil
    obtain ⟨rfl, rfl⟩ := List.append_eq_nil_iff.1 hnil'
    obtain ⟨hq, hcloses, hread⟩ := hlast
    next front all q k ops =>
    refine .inr ⟨rfl, _, q, all, k, lab, _, ops, hq, ?_, hcloses, rfl,
      stringLine hb₁ hlab (hb₂.append hb₁') hm hb₂' hends.left hstart hq hread⟩
    simp

theorem StringLine.read_iff {l : Operand → Line} (h : StringLine d front q l) {t : String}
    (ht : t.toList = front ++ 'c' :: q :: text) (read : Option Line) :
    (∃ left, readFront (line d) t = .ok (read, left)) ↔
      ∃ k, ClosesAt q text k ∧ read = some (l (.chars (String.ofList (text.take k)))) := by
  constructor
  · rintro ⟨left, hread⟩
    by_cases hcloses : ∃ k, ClosesAt q text k
    · obtain ⟨k, hcloses⟩ := hcloses
      have hline := (h.reads hcloses).readFront (s := t) (by rw [ht, List.append_nil])
      exact ⟨k, hcloses, (Prod.mk.inj (Except.ok.inj (hread.symm.trans hline))).1⟩
    · have hmiss := h.misses (not_exists.1 hcloses)
      rw [← ht] at hmiss
      obtain ⟨place, herror⟩ := hmiss.readFront
      rw [hread] at herror
      cases herror
  · rintro ⟨k, hcloses, rfl⟩
    exact ⟨[], (h.reads hcloses).readFront (by rw [ht, List.append_nil])⟩

/-- A comment behind a line that is read changes nothing, unless the line ends in a string of
characters.  Behind such a string it changes nothing just if only blanks have followed the closing
quote and neither this quote nor a semicolon is in it. -/
theorem line_with_comment (d : Dialect) {t : String} {read : Option Line} {left : List Char}
    (h : readFront (line d) t = .ok (read, left)) :
    ((∀ l, read = some l → ∀ s, .chars s ∉ l.operands) ∧
      ∀ u : String, '\n' ∉ u.toList →
      ∃ left', readFront (line d) (t ++ " ;" ++ u) = .ok (read, left')) ∨
    ∃ l s front q rest k, read = some l ∧ l.operands.getLast? = some (.chars s) ∧ q ∈ quotes ∧
      t.toList = front ++ 'c' :: q :: rest ∧ ClosesAt q rest k ∧ s.toList = rest.take k ∧
      ∀ u : String, '\n' ∉ u.toList →
      ((∃ left', readFront (line d) (t ++ " ;" ++ u) = .ok (read, left')) ↔
        Blanks (rest.drop (k + 1)) ∧ q ∉ u.toList ∧ ';' ∉ u.toList) := by
  have htext : ∀ u : String, (t ++ " ;" ++ u).toList = t.toList ++ ' ' :: ';' :: u.toList := by
    intro u
    simp [String.toList_append]
  obtain ⟨text, ht, ⟨rfl, bs, tl, rfl, hbs, htl, hline, hleft⟩ | ⟨l, rfl, hfound⟩⟩ :=
    (line_finds_end d).readFront h
  · refine .inl ⟨nofun, fun u hu => ?_⟩
    obtain ⟨bs', tl', left', hsplit, hbs', htl', hline', hleft'⟩ :=
      tail_with_comment hbs htl hline hleft hu
    have hread : (line d).Reads (bs' ++ tl') none left' :=
      Reads.named (Reads.orElse (Reads.map (tail_reads_before hbs' htl' hline' hleft')))
    exact ⟨left', hread.readFront (by rw [htext, ht, hsplit])⟩
  · obtain ⟨hnone, hreads⟩ | ⟨rfl, front, q, all, k, label, mnemonic, ops, hq, rfl, hcloses, rfl,
        hstring⟩ :=
      hfound.reread
    · refine .inl ⟨fun l' hl => Option.some.inj hl ▸ hnone, fun u hu => ?_⟩
      obtain ⟨text', rest', hsplit, hread⟩ := hreads u.toList hu
      exact ⟨rest', hread.readFront (by rw [htext, ht, hsplit])⟩
    · rw [List.append_nil] at ht
      refine .inr ⟨_, String.ofList (all.take k), front, q, all, k, rfl, by simp [Line.operands],
        hq, ht, hcloses, by simp, fun u hu => ?_⟩
      have hcomment :
          (t ++ " ;" ++ u).toList = front ++ 'c' :: q :: (all ++ ' ' :: ';' :: u.toList) := by
        rw [htext, ht]
        simp
      rw [hstring.read_iff hcomment, ← closes_same_iff hq hcloses]
      refine exists_congr fun i => and_congr_right fun _ => ?_
      simp [String.ofList_inj, eq_comm]

/-- Behind a string a comment with a semicolon of its own makes the line unreadable. -/
theorem line_with_two_comments :
    readFront (line ⟨.absolute, .twoPass⟩) " BYTE c'A'" =
      .ok (some ⟨none, ⟨"BYTE", [.chars "A"]⟩⟩, []) ∧
    ¬∃ left, readFront (line ⟨.absolute, .twoPass⟩) (" BYTE c'A'" ++ " ;" ++ " a; b") =
      .ok (some ⟨none, ⟨"BYTE", [.chars "A"]⟩⟩, left) := by
  have hread :
      readFront (line ⟨.absolute, .twoPass⟩) " BYTE c'A'" =
        .ok (some ⟨none, ⟨"BYTE", [.chars "A"]⟩⟩, []) := by
    decide +kernel
  refine ⟨hread, ?_⟩
  obtain ⟨hnone, -⟩ | ⟨l, s, front, q, rest, k, -, -, -, -, -, -, hsame⟩ :=
    line_with_comment _ hread
  · exact absurd List.mem_cons_self (hnone _ rfl "A")
  · rw [hsame " a; b" (by decide)]
    rintro ⟨-, -, hsemicolon⟩
    exact hsemicolon (by decide)

end Assembler.Grammar
