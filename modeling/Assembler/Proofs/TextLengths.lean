import Mathlib.Data.Option.Basic
import Assembler.Proofs.ParsedStrings

/-! # Lengths of what is read

A reader leaves no more characters than it was given, so nothing that is read from a text is longer
than the text.  A source text of `n` characters has at most `n + 1` lines, and no string in them is
longer than `n` (`Source.lengths_of_parse`). -/

namespace Assembler
set_option autoImplicit false

namespace Reader

variable {α β : Type} {n : Nat} {P : α → Prop} {Q : β → Prop} {p q : Reader α}

/-- Before at most `n` characters a reader leaves at most `n`, and yields values with a property. -/
def Within (n : Nat) (p : Reader α) (P : α → Prop) : Prop :=
  ∀ c a next, c.rest.length ≤ n → p c = .done a next → next.rest.length ≤ n ∧ P a

theorem within_pure {a : α} (h : P a) : (pure a : Reader α).Within n P := by
  intro c b next hc hb
  obtain ⟨rfl, rfl⟩ := Outcome.done.inj hb
  exact ⟨hc, h⟩

theorem within_miss {p : Reader α} (h : ∀ c a next, p c ≠ .done a next) : p.Within n P :=
  fun c a next _ ha => absurd ha (h c a next)

theorem Within.bind {f : α → Reader β} (hp : p.Within n P) (hf : ∀ a, P a → (f a).Within n Q) :
    (p >>= f).Within n Q := by
  intro c b last hc h
  change andThen p f c = .done b last at h
  unfold andThen at h
  split at h
  · next a next ha =>
    obtain ⟨hnext, hP⟩ := hp c a next hc ha
    exact hf a hP next b last hnext h
  · cases h
  · cases h

theorem Within.map {f : α → β} (hp : p.Within n P) (hf : ∀ a, P a → Q (f a)) :
    (f <$> p).Within n Q :=
  hp.bind fun a ha => within_pure (hf a ha)

theorem Within.named (hp : p.Within n P) (name : String) : (named name p).Within n P := by
  intro c a next hc h
  unfold Reader.named at h
  split at h
  · split at h <;> cases h
  · exact hp c a next hc h

theorem Within.orElse (hp : p.Within n P) (hq : q.Within n P) : (orElse p q).Within n P := by
  intro c a next hc h
  unfold Reader.orElse at h
  split at h
  · exact hq c a next hc h
  · exact hp c a next hc h

theorem Within.orAtStart (hp : p.Within n P) (hq : q.Within n P) : (orAtStart p q).Within n P := by
  intro c a next hc h
  unfold Reader.orAtStart at h
  split at h
  · split at h
    · exact hq c a next hc h
    · cases h
  · exact hp c a next hc h

theorem Within.endingWith {last : Reader β} (hp : p.Within n P) (hq : last.Within n Q) :
    (endingWith p last).Within n P := by
  intro c a next hc h
  unfold Reader.endingWith at h
  split at h
  · next b mid hb =>
    obtain ⟨hmid, hP⟩ := hp c b mid hc hb
    split at h
    · next e last he =>
      obtain ⟨rfl, rfl⟩ := Outcome.done.inj h
      exact ⟨(hq mid e last hmid he).1, hP⟩
    · cases h
    · cases h
  · exact hp c a next hc h

theorem Within.optional (hp : p.Within n P) : (optional p).Within n fun _ => True := by
  intro c read next hc h
  unfold Reader.optional at h
  split at h
  · next a mid ha =>
    obtain ⟨-, rfl⟩ := Outcome.done.inj h
    exact ⟨(hp c a mid hc ha).1, trivial⟩
  · obtain ⟨-, rfl⟩ := Outcome.done.inj h
    exact ⟨hc, trivial⟩
  · cases h

theorem within_ahead (p : Reader α) : (ahead p).Within n fun _ => True := by
  intro c a next hc h
  unfold ahead at h
  split at h
  · obtain ⟨-, rfl⟩ := Outcome.done.inj h
    exact ⟨hc, trivial⟩
  · cases h
  · cases h

theorem Within.barring (hp : p.Within n P) (x : Reader String) : (barring p x).Within n P := by
  intro c a next hc h
  unfold Reader.barring at h
  split at h
  · cases h
  · exact hp c a next hc h
  · cases h

/-! ## Characters -/

theorem within_oneOf (cs : List Char) : (oneOf cs).Within n fun _ => True := by
  intro c a next hc h
  unfold oneOf charWhere at h
  split at h
  · cases h
  · next x xs hrest =>
    split at h
    · obtain ⟨-, rfl⟩ := Outcome.done.inj h
      rw [hrest, List.length_cons] at hc
      refine ⟨?_, trivial⟩
      change xs.length ≤ n
      omega
    · cases h

theorem within_literal (s : String) : (literal s).Within n fun _ => True := by
  intro c a next hc h
  unfold literal at h
  dsimp only at h
  split at h
  · obtain ⟨-, rfl⟩ := Outcome.done.inj h
    refine ⟨?_, trivial⟩
    rw [Cursor.advance, List.length_drop]
    omega
  · cases h

theorem within_run (isPart : Char → Bool) : (run isPart).Within n fun cs => cs.length ≤ n := by
  intro c cs next hc h
  obtain ⟨rfl, rfl⟩ := Outcome.done.inj h
  have htaken := (List.takeWhile_prefix (l := c.rest) isPart).length_le
  have hleft := (List.dropWhile_suffix (l := c.rest) isPart).length_le
  exact ⟨hleft.trans hc, htaken.trans hc⟩

theorem within_run1 (isPart : Char → Bool) (what : String) :
    (run1 isPart what).Within n fun cs => cs.length ≤ n := by
  intro c cs next hc h
  unfold run1 at h
  split at h
  · cases h
  · split at h
    · exact within_run isPart c cs next hc h
    · cases h

theorem within_headAndRun (first rest : Char → Bool) (what : String) :
    (headAndRun first rest what).Within n fun _ => True := by
  intro c cs next hc h
  unfold headAndRun at h
  split at h
  · cases h
  · next x xs hrest =>
    split at h
    · obtain ⟨-, rfl⟩ := Outcome.done.inj h
      rw [hrest, List.length_cons] at hc
      have hleft := (List.dropWhile_suffix (l := xs) rest).length_le
      refine ⟨?_, trivial⟩
      change (xs.dropWhile rest).length ≤ n
      omega
    · cases h

theorem within_ending : ending.Within n fun _ => True := by
  intro c a next hc h
  unfold ending at h
  split at h
  · obtain ⟨-, rfl⟩ := Outcome.done.inj h
    exact ⟨hc, trivial⟩
  · cases h

/-! ## Sequences and whole texts -/

theorem Within.furtherItems {sep : Reader β} (hp : p.Within n P) (hsep : sep.Within n Q)
    (fuel : Nat) {got : List α} (hgot : ∀ a ∈ got, P a) :
    (furtherItems p sep fuel got).Within n fun as => ∀ a ∈ as, P a := by
  induction fuel generalizing got with
  | zero => exact within_pure hgot
  | succ fuel ih =>
    intro c as last hc h
    unfold Reader.furtherItems at h
    split at h
    · cases h
    · obtain ⟨rfl, rfl⟩ := Outcome.done.inj h
      exact ⟨hc, hgot⟩
    · next b next hb =>
      have hnext := (hsep c b next hc hb).1
      split at h
      · cases h
      · obtain ⟨rfl, rfl⟩ := Outcome.done.inj h
        exact ⟨hc, hgot⟩
      · next a mid ha =>
        obtain ⟨hmid, hP⟩ := hp next a mid hnext ha
        refine ih (fun a' ha' => ?_) mid as last hmid h
        rcases List.mem_append.1 ha' with ha' | ha'
        · exact hgot a' ha'
        · rwa [List.mem_singleton.1 ha']

theorem Within.separated {sep : Reader β} (hp : p.Within n P) (hsep : sep.Within n Q) :
    (separated p sep).Within n fun as => ∀ a ∈ as, P a := by
  intro c as last hc h
  unfold Reader.separated at h
  split at h
  · cases h
  · obtain ⟨rfl, rfl⟩ := Outcome.done.inj h
    exact ⟨hc, by simp⟩
  · next a next ha =>
    obtain ⟨hnext, hP⟩ := hp c a next hc ha
    exact hp.furtherItems hsep _ (by simpa using hP) next as last hnext h

theorem Within.of_readFront (hp : p.Within n P) {s : String} (hs : s.toList.length ≤ n) {a : α}
    {rest : List Char} (h : readFront p s = .ok (a, rest)) : P a := by
  unfold readFront at h
  split at h
  · next b next hb =>
    obtain ⟨rfl, -⟩ := Prod.mk.inj (Except.ok.inj h)
    exact (hp (.start s) b next hs hb).2
  · cases h
  · cases h

end Reader

/-! ## Lines -/

/-- The strings among operands have at most `n` characters. -/
def Operand.Short (n : Nat) (op : Operand) : Prop :=
  ∀ s, op = .chars s ∨ op = .hex s → s.toList.length ≤ n

theorem Operand.short_of_not_isString {n : Nat} {op : Operand} (h : op.isString = false) :
    op.Short n := by
  rintro s (rfl | rfl) <;> cases h

namespace Grammar
open Reader

variable {n : Nat}

theorem within_identifier : identifier.Within n fun _ => True :=
  ((within_headAndRun _ _ _).map fun _ _ => trivial).named _

theorem within_markedNumber (title mark : String) (base : Nat) (isDigit : Char → Bool)
    (what : String) :
    (markedNumber title mark base isDigit what).Within n fun _ => True := by
  unfold markedNumber
  refine Within.named (Within.bind (within_literal _).optional fun sign _ => ?_) _
  exact (within_literal _).bind fun _ _ => (within_run1 _ _).bind fun ds _ => within_pure trivial

theorem within_decimalNumber : decimalNumber.Within n fun _ => True := by
  unfold decimalNumber
  refine Within.named (Within.bind (within_literal _).optional fun sign _ => ?_) _
  refine (within_run1 _ _).bind fun ds _ => ?_
  unfold decimalValue
  split
  · exact within_miss nofun
  · exact within_pure trivial

theorem within_number (d : Dialect) : (number d).Within n fun _ => True := by
  have hhexadecimal : hexadecimalNumber.Within n fun _ => True := within_markedNumber _ _ _ _ _
  have hbinary : binaryNumber.Within n fun _ => True := within_markedNumber _ _ _ _ _
  have hoctal : octalNumber.Within n fun _ => True := within_markedNumber _ _ _ _ _
  unfold number
  apply Within.named
  split
  · exact ((hhexadecimal.orElse hbinary).orElse hoctal).orElse within_decimalNumber
  · exact (hhexadecimal.orElse hoctal).orElse within_decimalNumber

theorem within_hexString : hexString.Within n (Operand.Short n) := by
  unfold hexString
  refine Within.named ((within_literal _).bind fun _ _ => (within_oneOf _).bind fun quote _ => ?_) _
  refine Within.bind ((within_run1 _ _).endingWith (within_literal _)) fun ds hds => within_pure ?_
  rintro s (hs | hs) <;> cases hs
  simpa using hds

theorem within_charString : charString.Within n (Operand.Short n) := by
  unfold charString
  refine Within.named ((within_literal _).bind fun _ _ => (within_oneOf _).bind fun quote _ => ?_) _
  refine (within_run _).bind fun all hall => ?_
  rw [closeString_eq]
  split
  · next backwards hclosed =>
    refine within_pure ?_
    rintro s (hs | hs) <;> cases hs
    have hlength := (closedChars_suffix hclosed).length_le
    rw [List.length_reverse] at hlength
    simpa using hlength.trans hall
  · exact within_miss nofun

theorem within_register : register.Within n (Operand.Short n) := by
  have hnumber : registerNumber.Within n fun _ => True := by
    unfold registerNumber
    exact (within_oneOf _).bind fun _ _ => within_decimalNumber
  unfold register
  refine Within.named ((hnumber.barring _).bind fun i _ => ?_) _
  split
  · exact within_pure (Operand.short_of_not_isString rfl)
  · exact within_miss nofun

theorem within_operand (d : Dialect) : (operand d).Within n (Operand.Short n) := by
  have hnumber : (numberOperand d).Within n (Operand.Short n) :=
    (within_number d).map fun v _ => Operand.short_of_not_isString rfl
  have hconstants :=
    ((within_register.orElse hnumber).orElse within_hexString).orElse (within_charString (n := n))
  have hdirect : ∀ title, (directName title).Within n (Operand.Short n) := fun title =>
    (within_identifier.map fun x _ => Operand.short_of_not_isString rfl).named _
  have hrelative : relativeName.Within n (Operand.Short n) := by
    unfold relativeName
    refine Within.named ((within_literal _).bind fun _ _ => ?_) _
    exact within_identifier.map fun x _ => Operand.short_of_not_isString rfl
  unfold operand
  apply Within.named
  split
  · exact (hconstants.orElse hrelative).orElse (hdirect _)
  · exact hconstants.orElse (hdirect _)

theorem within_blanks : blanks.Within n fun _ => True := by
  unfold blanks
  exact (within_run _).bind fun _ _ => within_pure trivial

theorem within_tail : tail.Within n fun _ => True := by
  have hcomment : comment.Within n fun _ => True := by
    unfold comment
    exact Within.named
      ((within_literal _).bind fun _ _ => (within_run _).bind fun _ _ => within_pure trivial) _
  unfold tail
  exact Within.named (within_blanks.bind fun _ _ => within_ending.orAtStart hcomment) _

theorem within_command (d : Dialect) : (command d).Within n fun cmd => ∀ op ∈ cmd.operands,
    op.Short n := by
  unfold command
  refine Within.named (within_blanks.bind fun _ _ => ?_) _
  refine Within.bind (within_identifier.endingWith within_blanks) fun m _ => ?_
  refine Within.bind ((within_operand d).separated ((within_literal _).endingWith within_blanks))
    fun ops hops => ?_
  exact (within_ahead _).bind fun _ _ => within_pure hops

theorem within_line (d : Dialect) : (line d).Within n fun read => ∀ l ∈ read, ∀ op ∈ l.operands,
    op.Short n := by
  have hlabel : label.Within n fun _ => True :=
    (within_identifier.endingWith (within_literal _)).named _
  have hcommandLine : (commandLine d).Within n fun l => ∀ op ∈ l.operands, op.Short n := by
    unfold commandLine
    refine Within.named (within_blanks.bind fun _ _ => ?_) _
    refine Within.bind (hlabel.optional.endingWith within_blanks) fun name _ => ?_
    refine Within.bind ((within_command d).endingWith within_blanks) fun cmd hcmd => ?_
    exact within_tail.bind fun _ _ => within_pure hcmd
  unfold line
  refine Within.named (Within.orElse ?_ ?_) _
  · exact within_tail.map fun _ _ => by simp
  · exact hcommandLine.map fun l hl => by simpa using hl

end Grammar

/-! ## Texts -/

theorem Text.splitLines_lengths (cs : List Char) :
    (splitLines cs).length ≤ cs.length + 1 ∧ ∀ line ∈ splitLines cs, line.length ≤ cs.length := by
  induction cs with
  | nil => simp [splitLines]
  | cons c cs ih =>
    obtain ⟨hcount, hlines⟩ := ih
    rw [splitLines]
    split
    · simp
    · next line lines hsplit =>
      rw [hsplit, List.length_cons] at hcount
      rw [hsplit, List.forall_mem_cons] at hlines
      split
      · simp only [List.length_cons, List.forall_mem_cons, List.length_nil]
        refine ⟨by omega, by omega, by omega, fun l hl => ?_⟩
        have := hlines.2 l hl
        omega
      · simp only [List.length_cons, List.forall_mem_cons]
        refine ⟨by omega, by omega, fun l hl => ?_⟩
        have := hlines.2 l hl
        omega

theorem Source.lengths_of_ofLines {d : Dialect} {n k : Nat} {texts : List (List Char)} {s : Source}
    (htexts : ∀ text ∈ texts, text.length ≤ n) (h : ofLines d k texts = .ok s) :
    s.lines.length ≤ texts.length ∧ ∀ l ∈ s.lines, ∀ op ∈ l.operands, op.Short n := by
  induction texts generalizing k s with
  | nil =>
    obtain rfl := Except.ok.inj h
    simp
  | cons cs rest ih =>
    obtain ⟨hcs, hrest⟩ := List.forall_mem_cons.1 htexts
    rw [ofLines] at h
    split at h
    · next read back hread =>
      obtain ⟨s', hs', rfl⟩ := (map_eq_ok_iff _ _ _).1 h
      obtain ⟨hcount, hshort⟩ := ih hrest hs'
      have hline := (Grammar.within_line d).of_readFront (by simpa using hcs) hread
      cases read with
      | none => exact ⟨hcount.trans (by simp), hshort⟩
      | some l => exact ⟨Nat.succ_le_succ hcount, List.forall_mem_cons.2 ⟨hline l rfl, hshort⟩⟩
    · obtain ⟨s', hs', rfl⟩ := (map_eq_ok_iff _ _ _).1 h
      obtain ⟨hcount, hshort⟩ := ih hrest hs'
      exact ⟨hcount.trans (by simp), hshort⟩
    · cases h

/-- How many lines a source text can have, and how long the strings in them can be. -/
theorem Source.lengths_of_parse {d : Dialect} {text : String} {s : Source}
    (h : parse d text = .ok s) :
    s.lines.length ≤ text.toList.length + 1 ∧ ∀ l ∈ s.lines, ∀ op ∈ l.operands,
      op.Short text.toList.length := by
  obtain ⟨hcount, hlines⟩ := Text.splitLines_lengths text.toList
  obtain ⟨hle, hshort⟩ := lengths_of_ofLines hlines h
  exact ⟨hle.trans hcount, hshort⟩

end Assembler
