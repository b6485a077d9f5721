import Mathlib.Tactic.Common
import Assembler.Source
import Assembler.Proofs.ClosingQuotes
import Assembler.Proofs.Digits
import Assembler.Proofs.HexLiterals
import Assembler.Proofs.Operands

/-! # Strings in source texts

A reader yields values with a property if all its parts do.  Hexadecimal strings that are read from
a source text therefore have at least one digit and nothing but digits (`wellWritten_of_parse`), so
that the empty character string is the only string without a value (`Operand.legible_iff`). -/

namespace Assembler
set_option autoImplicit false

/-! ## What readers yield -/

namespace Reader

variable {α β : Type} {P : α → Prop} {Q : β → Prop} {p q : Reader α}

/-- Every value that a reader yields has a property. -/
def Yields (p : Reader α) (P : α → Prop) : Prop := ∀ c a next, p c = .done a next → P a

theorem yields_any (p : Reader α) : p.Yields fun _ => True := fun _ _ _ _ => trivial

theorem yields_pure {a : α} (h : P a) : (pure a : Reader α).Yields P := by
  intro c b next hb
  obtain ⟨rfl, -⟩ := Outcome.done.inj hb
  exact h

theorem yields_expecting (what : String) : (expecting what : Reader α).Yields P := by
  intro c a next h
  cases h

theorem Yields.bind {f : α → Reader β} (hp : p.Yields P) (hf : ∀ a, P a → (f a).Yields Q) :
    (p >>= f).Yields Q := by
  intro c b last h
  change andThen p f c = .done b last at h
  unfold andThen at h
  split at h
  · next a next ha => exact hf a (hp c a next ha) next b last h
  · cases h
  · cases h

theorem yields_bind {f : α → Reader β} (hf : ∀ a, (f a).Yields Q) : (p >>= f).Yields Q :=
  (yields_any p).bind fun a _ => hf a

theorem Yields.map {f : α → β} (hp : p.Yields P) (hf : ∀ a, P a → Q (f a)) : (f <$> p).Yields Q :=
  hp.bind fun a ha => yields_pure (hf a ha)

theorem Yields.named (hp : p.Yields P) (name : String) : (named name p).Yields P := by
  intro c a next h
  unfold Reader.named at h
  split at h
  · split at h <;> cases h
  · exact hp c a next h

theorem Yields.orElse (hp : p.Yields P) (hq : q.Yields P) : (orElse p q).Yields P := by
  intro c a next h
  unfold Reader.orElse at h
  split at h
  · exact hq c a next h
  · exact hp c a next h

theorem Yields.endingWith (hp : p.Yields P) (last : Reader β) : (endingWith p last).Yields P := by
  intro c a next h
  unfold Reader.endingWith at h
  split at h
  · next b mid hb =>
    split at h
    · obtain ⟨rfl, -⟩ := Outcome.done.inj h
      exact hp c b mid hb
    · cases h
    · cases h
  · exact hp c a next h

theorem Yields.optional (hp : p.Yields P) : (optional p).Yields fun read => ∀ a, read = some a →
    P a := by
  intro c read next h
  unfold Reader.optional at h
  split at h
  · next a mid ha =>
    obtain ⟨rfl, -⟩ := Outcome.done.inj h
    rintro b hb
    obtain rfl := Option.some.inj hb
    exact hp c a mid ha
  · obtain ⟨rfl, -⟩ := Outcome.done.inj h
    exact nofun
  · cases h

theorem yields_run1 (isDigit : Char → Bool) (what : String) :
    (run1 isDigit what).Yields fun ds => ds ≠ [] ∧ ∀ d ∈ ds, isDigit d = true := by
  intro c ds next h
  unfold run1 at h
  split at h
  · cases h
  · next x xs hrest =>
    split at h
    · next hx =>
      obtain ⟨rfl, -⟩ := Outcome.done.inj h
      refine ⟨by simp [hrest, hx], fun d hd => ?_⟩
      exact List.all_eq_true.1 List.all_takeWhile d hd
    · cases h

theorem yields_headAndRun (first rest : Char → Bool) (what : String) :
    (headAndRun first rest what).Yields fun cs => ∃ c tail, cs = c :: tail ∧ first c = true := by
  intro c cs next h
  unfold headAndRun at h
  split at h
  · cases h
  · next x xs hrest =>
    split at h
    · next hx =>
      obtain ⟨rfl, -⟩ := Outcome.done.inj h
      exact ⟨x, _, rfl, hx⟩
    · cases h

theorem Yields.furtherItems (hp : p.Yields P) (sep : Reader β) (fuel : Nat) {got : List α}
    (hgot : ∀ a ∈ got, P a) :
    (furtherItems p sep fuel got).Yields fun as => ∀ a ∈ as, P a := by
  induction fuel generalizing got with
  | zero => exact yields_pure hgot
  | succ fuel ih =>
    intro c as last h
    unfold Reader.furtherItems at h
    split at h
    · cases h
    · obtain ⟨rfl, -⟩ := Outcome.done.inj h
      exact hgot
    · next b next hb =>
      split at h
      · cases h
      · obtain ⟨rfl, -⟩ := Outcome.done.inj h
        exact hgot
      · next a mid ha =>
        have hall : ∀ a' ∈ got ++ [a], P a' := by
          intro a' ha'
          rcases List.mem_append.1 ha' with ha' | ha'
          · exact hgot a' ha'
          · rw [List.mem_singleton.1 ha']
            exact hp next a mid ha
        exact ih hall mid as last h

theorem Yields.separated (hp : p.Yields P) (sep : Reader β) :
    (separated p sep).Yields fun as => ∀ a ∈ as, P a := by
  intro c as last h
  unfold Reader.separated at h
  split at h
  · cases h
  · obtain ⟨rfl, -⟩ := Outcome.done.inj h
    simp
  · next a next ha => exact hp.furtherItems sep _ (by simpa using hp c a next ha) next as last h

theorem Yields.of_readFront (hp : p.Yields P) {s : String} {a : α} {rest : List Char}
    (h : readFront p s = .ok (a, rest)) :
    P a := by
  unfold readFront at h
  split at h
  · next b next hb =>
    obtain ⟨rfl, -⟩ := Prod.mk.inj (Except.ok.inj h)
    exact hp _ b next hb
  · cases h
  · cases h

end Reader

/-! ## Operands as they are read -/

/-- A hexadecimal string has digits and nothing else. -/
def Operand.WellWritten (op : Operand) : Prop :=
  ∀ ds, op = .hex ds → ds.toList ≠ [] ∧ ∀ c ∈ ds.toList, Text.isHexadecimal c = true

/-- The operands of a line are well written. -/
def Line.WellWritten (l : Line) : Prop := ∀ op ∈ l.operands, op.WellWritten

namespace Grammar
open Reader

theorem hexString_yields : hexString.Yields Operand.WellWritten := by
  unfold hexString
  refine Yields.named (yields_bind fun _ => yields_bind fun quote => ?_) _
  refine Yields.bind ((yields_run1 _ _).endingWith _) fun ds hds => yields_pure ?_
  rintro ds' h
  rw [← Operand.hex.inj h, String.toList_ofList]
  exact hds

theorem charString_yields : charString.Yields Operand.WellWritten := by
  unfold charString
  refine Yields.named (yields_bind fun _ => yields_bind fun quote => yields_bind fun all => ?_) _
  rw [closeString_eq]
  split
  · exact yields_pure (by simp [Operand.WellWritten])
  · exact yields_expecting _

theorem register_yields : register.Yields Operand.WellWritten := by
  unfold register
  refine Yields.named (yields_bind fun i => ?_) _
  split
  · exact yields_pure (by simp [Operand.WellWritten])
  · exact yields_expecting _

theorem numberOperand_yields (d : Dialect) : (numberOperand d).Yields Operand.WellWritten :=
  (yields_any _).map fun v _ => by simp [Operand.WellWritten]

theorem directName_yields (title : String) : (directName title).Yields Operand.WellWritten :=
  ((yields_any _).map fun x _ => by simp [Operand.WellWritten]).named _

theorem relativeName_yields : relativeName.Yields Operand.WellWritten :=
  Yields.named (yields_bind fun _ => (yields_any _).map fun x _ => by simp [Operand.WellWritten]) _

theorem operand_yields (d : Dialect) : (operand d).Yields Operand.WellWritten := by
  have hconstants :=
    ((register_yields.orElse (numberOperand_yields d)).orElse hexString_yields).orElse
      charString_yields
  unfold operand
  apply Yields.named
  split
  · exact (hconstants.orElse relativeName_yields).orElse (directName_yields _)
  · exact hconstants.orElse (directName_yields _)

theorem command_yields (d : Dialect) : (command d).Yields fun cmd => ∀ op ∈ cmd.operands,
    op.WellWritten := by
  unfold command
  refine Yields.named (yields_bind fun _ => yields_bind fun m => ?_) _
  refine Yields.bind ((operand_yields d).separated _) fun ops hops => ?_
  exact yields_bind fun _ => yields_pure hops

theorem commandLine_yields (d : Dialect) : (commandLine d).Yields Line.WellWritten := by
  unfold commandLine
  refine Yields.named (yields_bind fun _ => yields_bind fun name => ?_) _
  refine Yields.bind ((command_yields d).endingWith _) fun cmd hcmd => ?_
  exact yields_bind fun _ => yields_pure hcmd

theorem identifier_yields : identifier.Yields fun m => ∃ c cs, m = String.ofList (c :: cs) ∧
    isNameStart c = true := by
  refine ((yields_headAndRun _ _ _).map fun name hname => ?_).named _
  obtain ⟨c, cs, rfl, hc⟩ := hname
  exact ⟨c, cs, rfl, hc⟩

theorem commandLine_yields_label (d : Dialect) :
    (commandLine d).Yields fun l => l.label ≠ some "" := by
  have hlabel : label.Yields fun x => x ≠ "" := by
    unfold label
    refine Yields.named (Yields.endingWith ?_ _) _
    intro c x next h
    obtain ⟨c, cs, rfl, -⟩ := identifier_yields c x next h
    exact fun hempty => by simpa using congrArg String.toList hempty
  unfold commandLine
  refine Yields.named
    (yields_bind fun _ => Yields.bind (hlabel.optional.endingWith _) fun name hname => ?_) _
  exact yields_bind fun cmd => yields_bind fun _ => yields_pure fun hempty => hname "" hempty rfl

theorem commandLine_yields_mnemonic (d : Dialect) :
    (commandLine d).Yields fun l => ∃ c cs, l.mnemonic = String.ofList (c :: cs) ∧
      isNameStart c = true := by
  have hcommand : (command d).Yields fun cmd => ∃ c cs, cmd.mnemonic = String.ofList (c :: cs) ∧
      isNameStart c = true := by
    unfold command
    refine Yields.named
      (yields_bind fun _ => Yields.bind (identifier_yields.endingWith _) fun m hm => ?_) _
    exact yields_bind fun _ => yields_bind fun _ => yields_pure hm
  unfold commandLine
  refine Yields.named (yields_bind fun _ => yields_bind fun name => ?_) _
  exact Yields.bind (hcommand.endingWith _) fun cmd hcmd => yields_bind fun _ => yields_pure hcmd

theorem line_yields {d : Dialect} {P : Line → Prop} (hp : (commandLine d).Yields P) :
    (line d).Yields fun read => ∀ l ∈ read, P l := by
  unfold line
  refine Yields.named (Yields.orElse ?_ ?_) _
  · exact (yields_any _).map fun _ _ => by simp
  · exact hp.map fun l hl => by simpa using hl

end Grammar

theorem Source.forall_of_ofLines {d : Dialect} {P : Line → Prop}
    (hp : (Grammar.commandLine d).Yields P) {n : Nat} {texts : List (List Char)} {s : Source}
    (h : ofLines d n texts = .ok s) : ∀ l ∈ s.lines, P l := by
  induction texts generalizing n s with
  | nil =>
    obtain rfl := Except.ok.inj h
    simp
  | cons cs rest ih =>
    rw [ofLines] at h
    split at h
    · next read back hread =>
      obtain ⟨s', hs', rfl⟩ := (map_eq_ok_iff _ _ _).1 h
      have hline := (Grammar.line_yields hp).of_readFront hread
      cases read with
      | none => exact ih hs'
      | some l => exact List.forall_mem_cons.2 ⟨hline l rfl, ih hs'⟩
    · obtain ⟨s', hs', rfl⟩ := (map_eq_ok_iff _ _ _).1 h
      intro l hl
      exact ih hs' l hl
    · cases h

/-- The lines of a source text are well written. -/
theorem Source.wellWritten_of_parse {d : Dialect} {text : String} {s : Source}
    (h : parse d text = .ok s) :
    ∀ l ∈ s.lines, l.WellWritten := forall_of_ofLines (Grammar.commandLine_yields d) h

/-- No label of a source text is empty. -/
theorem Source.label_of_parse {d : Dialect} {text : String} {s : Source}
    (h : parse d text = .ok s) :
    ∀ l ∈ s.lines, l.label ≠ some "" := forall_of_ofLines (Grammar.commandLine_yields_label d) h

/-- The mnemonics of a source text are names. -/
theorem Source.mnemonic_of_parse {d : Dialect} {text : String} {s : Source}
    (h : parse d text = .ok s) :
    ∀ l ∈ s.lines, ∃ c cs, l.mnemonic = String.ofList (c :: cs) ∧ Grammar.isNameStart c = true :=
  forall_of_ofLines (Grammar.commandLine_yields_mnemonic d) h

/-! ## Values of strings -/

theorem hexValue_isOk_iff {ds : List Char} (h : ∀ c ∈ ds, Text.isHexadecimal c = true) :
    (∃ v, hexValue ds = .ok v) ↔ ds ≠ [] := by
  simp only [hexValue_digits_iff h, exists_and_left, exists_eq, and_true]

theorem charDigits_isHexadecimal (s : String) :
    ∀ c ∈ charDigits s, Text.isHexadecimal c = true := by
  intro c hc
  obtain ⟨x, -, hc⟩ := List.mem_flatMap.1 hc
  exact Text.isHexadecimal_padLeft (Text.isHexadecimal_digits .lower x.toNat) c hc

theorem charDigits_eq_nil_iff {s : String} : charDigits s = [] ↔ s = "" := by
  have hne : ∀ x : Char, Text.padLeft 2 (Text.digits .lower 16 x.toNat) ≠ [] := by
    intro x hx
    have hlength := congrArg List.length hx
    simp only [Text.padLeft, List.length_append, List.length_replicate, List.length_nil] at hlength
    omega
  rw [charDigits, List.flatMap_eq_nil_iff, ← String.toList_eq_nil_iff]
  constructor
  · intro h
    cases hs : s.toList with
    | nil => rfl
    | cons x xs => exact absurd (h x (by rw [hs]; exact List.mem_cons_self)) (hne x)
  · intro h
    simp [h]

/-- The empty character string is the only well-written operand that is a string without a value. -/
theorem Operand.legible_iff {op : Operand} (h : op.WellWritten) : op.Legible ↔ op ≠ .chars "" := by
  cases op with
  | chars s =>
    simp only [Legible, isString, stringValue, true_implies,
      hexValue_isOk_iff (charDigits_isHexadecimal s), ne_eq, charDigits_eq_nil_iff,
      Operand.chars.injEq]
  | hex ds =>
    obtain ⟨hne, hdigits⟩ := h ds rfl
    exact iff_of_true (fun _ => (hexValue_isOk_iff hdigits).2 hne) (by simp)
  | _ => simp [Legible, isString]

end Assembler
