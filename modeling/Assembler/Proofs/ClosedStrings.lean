import Assembler.Proofs.OperandLanguage

/-! # Where strings of characters close

The reader of strings looks for the closing quote from the end of the text.  Read forwards, the last
character that is the quote or a semicolon decides (`ClosesAt`): the quote closes if only blanks
follow it, and a semicolon begins a comment if the quote stands before it, blanks aside.
`charString_language` says that this is all the reader asks for. -/

namespace Assembler.Grammar
open Reader
set_option autoImplicit false

variable {cs front after rest back : List Char} {q c c' : Char} {j k k' : Nat}
  {isPart : Char → Bool}

/-! ## The last character of a class -/

/-- At a place stands the last character of a class. -/
structure LastAt (isPart : Char → Bool) (cs : List Char) (k : Nat) (c : Char) : Prop where
  here : cs[k]? = some c
  part : isPart c = true
  after : ∀ x ∈ cs.drop (k + 1), isPart x = false

theorem split_of_getElem? (h : cs[k]? = some c) : cs = cs.take k ++ c :: cs.drop (k + 1) := by
  obtain ⟨hk, rfl⟩ := List.getElem?_eq_some_iff.1 h
  rw [← List.drop_eq_getElem_cons hk, List.take_append_drop]

theorem lastAt_append (hc : isPart c = true) (hafter : ∀ x ∈ after, isPart x = false) :
    LastAt isPart (front ++ c :: after) front.length c :=
  ⟨by simp, hc, by
    rw [show (front ++ c :: after).drop (front.length + 1) = after by simp [List.drop_append]]
    exact hafter⟩

theorem LastAt.le (h : LastAt isPart cs k c) {i : Nat} {x : Char} (hx : cs[i]? = some x)
    (hpart : isPart x = true) :
    i ≤ k := by
  by_contra hlt
  have hmem : x ∈ cs.drop (k + 1) := by
    refine List.mem_of_getElem? (i := i - (k + 1)) ?_
    rw [List.getElem?_drop, Nat.add_sub_cancel' (by omega), hx]
  rw [h.after x hmem] at hpart
  cases hpart

theorem LastAt.lt (h : LastAt isPart cs k c) : k < cs.length :=
  (List.getElem?_eq_some_iff.1 h.here).1

theorem dropWhile_reverse_eq_cons_iff (isPart : Char → Bool) (cs : List Char) :
    cs.reverse.dropWhile (fun x => !isPart x) = c :: back ↔ ∃ k, LastAt isPart cs k c ∧
      back = (cs.take k).reverse := by
  constructor
  · intro hdrop
    obtain ⟨skipped, hskipped, hall⟩ : ∃ skipped, cs.reverse = skipped ++ c :: back ∧ ∀ x ∈ skipped,
        (!isPart x) = true :=
      ⟨_, hdrop ▸ List.takeWhile_append_dropWhile.symm,
        fun x hx => List.all_eq_true.1 List.all_takeWhile x hx⟩
    obtain rfl : cs = back.reverse ++ c :: skipped.reverse := by
      rw [← List.reverse_reverse cs, hskipped]
      simp
    have hc : isPart c = true := by
      have hends :=
        ends_dropWhile (fun x => !isPart x) (back.reverse ++ c :: skipped.reverse).reverse
      rw [hdrop, ends_cons] at hends
      simpa using hends
    refine ⟨back.reverse.length,
      lastAt_append hc fun x hx => ?_, by rw [List.take_left, List.reverse_reverse]⟩
    simpa using hall x (List.mem_reverse.1 hx)
  · rintro ⟨k, h, rfl⟩
    have hskip : ∀ x ∈ (cs.drop (k + 1)).reverse, (!isPart x) = true := by
      intro x hx
      rw [h.after x (List.mem_reverse.1 hx)]
      rfl
    have hcs : cs.reverse = (cs.drop (k + 1)).reverse ++ c :: (cs.take k).reverse := by
      conv_lhs => rw [split_of_getElem? h.here]
      simp
    rw [hcs, List.dropWhile_append_of_pos hskip, List.dropWhile_cons_of_neg (by simp [h.part])]

/-! ## Closing quotes -/

def isInk (c : Char) : Bool := !Text.isBlank c

def isMark (q c : Char) : Bool := c == q || c == ';'

/-- Where a string with quote `q` closes, `rest` being all that follows the opening quote. -/
inductive ClosesAt (q : Char) (rest : List Char) : Nat → Prop
  /-- The last quote or semicolon is the quote, and nothing but blanks follows. -/
  | bare {k : Nat} : LastAt (isMark q) rest k q → Blanks (rest.drop (k + 1)) → ClosesAt q rest k
  /-- The last quote or semicolon is a semicolon, and the last character before it that is not blank
  is the quote. -/
  | commented {j k : Nat} : LastAt (isMark q) rest j ';' → LastAt isInk (rest.take j) k q →
      ClosesAt q rest k

theorem isInk_of_quote (hq : q ∈ quotes) : isInk q = true := by
  obtain rfl | rfl := eq_of_mem_quotes hq <;> rfl

theorem ne_semicolon_of_quote (hq : q ∈ quotes) : q ≠ ';' := by
  obtain rfl | rfl := eq_of_mem_quotes hq <;> decide

theorem ClosesAt.getElem? (h : ClosesAt q rest k) : rest[k]? = some q := by
  cases h with
  | bare hlast => exact hlast.here
  | commented hlast hink =>
    have hhere := hink.here
    have hlt := hink.lt
    rw [List.length_take] at hlt
    rwa [List.getElem?_take_of_lt (by omega)] at hhere

theorem ClosesAt.lt (h : ClosesAt q rest k) : k < rest.length :=
  (List.getElem?_eq_some_iff.1 h.getElem?).1

theorem beforeQuote_reverse_eq_some_iff : beforeQuote q cs.reverse = some back ↔
    ∃ k, LastAt isInk cs k q ∧ back = (cs.take k).reverse := by
  have hblank : cs.reverse.dropWhile Text.isBlank = cs.reverse.dropWhile fun x => !isInk x := by
    simp [isInk]
  rw [← dropWhile_reverse_eq_cons_iff, beforeQuote, hblank]
  split
  · next hnil => simp [hnil]
  · next c cs' hdrop =>
    rw [hdrop, List.cons.injEq]
    split
    · next hc => simp [hc]
    · next hc => simp [hc]

theorem isInk_of_isMark (hq : q ∈ quotes) (h : isMark q c = true) : isInk c = true := by
  simp only [isMark, Bool.or_eq_true, beq_iff_eq] at h
  obtain rfl | rfl := h
  · exact isInk_of_quote hq
  · rfl

theorem lastAt_isInk_iff (hq : q ∈ quotes) : LastAt isInk cs k q ↔ LastAt (isMark q) cs k q ∧
    Blanks (cs.drop (k + 1)) := by
  constructor
  · intro h
    refine ⟨⟨h.here, by simp [isMark], fun x hx => ?_⟩,
      fun x hx => by simpa [isInk] using h.after x hx⟩
    by_contra hmark
    rw [Bool.not_eq_false] at hmark
    have hblank := h.after x hx
    rw [isInk_of_isMark hq hmark] at hblank
    cases hblank
  · rintro ⟨h, hblanks⟩
    exact ⟨h.here, isInk_of_quote hq, fun x hx => by simp [isInk, hblanks x hx]⟩

theorem take_take_of_lastAt (h : LastAt isPart (cs.take j) k c) :
    (cs.take j).take k = cs.take k := by
  obtain ⟨hk, -⟩ := List.getElem?_eq_some_iff.1 h.here
  rw [List.length_take] at hk
  rw [List.take_take, Nat.min_eq_left (by omega)]

/-- The closing quote found from the back is the one that closes the string. -/
theorem closedChars_reverse_eq_some_iff (hq : q ∈ quotes) : closedChars q rest.reverse = some back ↔
    ∃ k, ClosesAt q rest k ∧ back = (rest.take k).reverse := by
  rw [closedChars, Option.orElse_eq_some, beforeCommented]
  constructor
  · rintro (h | ⟨-, h⟩)
    · split at h
      · cases h
      · next c before hdrop =>
        obtain ⟨j, hlast, rfl⟩ := (dropWhile_reverse_eq_cons_iff (isMark q) rest).1 hdrop
        split at h
        · next hc =>
          obtain ⟨k, hink, rfl⟩ := beforeQuote_reverse_eq_some_iff.1 h
          exact ⟨k, .commented (hc ▸ hlast) hink, by rw [take_take_of_lastAt hink]⟩
        · cases h
    · obtain ⟨k, hink, rfl⟩ := beforeQuote_reverse_eq_some_iff.1 h
      obtain ⟨hlast, hblanks⟩ := (lastAt_isInk_iff hq).1 hink
      exact ⟨k, .bare hlast hblanks, rfl⟩
  · rintro ⟨k, hcloses, rfl⟩
    cases hcloses with
    | bare hlast hblanks =>
      have hdrop : rest.reverse.dropWhile (fun c => !(c == q || c == ';')) = _ :=
        (dropWhile_reverse_eq_cons_iff (isMark q) rest).2 ⟨k, hlast, rfl⟩
      refine .inr
        ⟨?_, beforeQuote_reverse_eq_some_iff.2 ⟨k, (lastAt_isInk_iff hq).2 ⟨hlast, hblanks⟩, rfl⟩⟩
      rw [hdrop]
      exact if_neg (ne_semicolon_of_quote hq)
    | @commented j k hlast hink =>
      have hdrop : rest.reverse.dropWhile (fun c => !(c == q || c == ';')) = _ :=
        (dropWhile_reverse_eq_cons_iff (isMark q) rest).2 ⟨j, hlast, rfl⟩
      refine .inl ?_
      rw [hdrop]
      exact beforeQuote_reverse_eq_some_iff.2 ⟨k, hink, by rw [take_take_of_lastAt hink]⟩

/-! ## Strings of characters -/

theorem ClosesAt.closedChars (h : ClosesAt q rest k) (hq : q ∈ quotes) :
    Grammar.closedChars q rest.reverse = some (rest.take k).reverse :=
  (closedChars_reverse_eq_some_iff hq).2 ⟨k, h, rfl⟩

theorem closedChars_eq_none (hq : q ∈ quotes) (h : ∀ k, ¬ClosesAt q rest k) :
    closedChars q rest.reverse = none := by
  rw [Option.eq_none_iff_forall_ne_some]
  intro back hback
  obtain ⟨k, hcloses, -⟩ := (closedChars_reverse_eq_some_iff hq).1 hback
  exact h k hcloses

theorem charString_misses_or_closes (cs : List Char) :
    charString.Misses cs ∨ ∃ q ∈ quotes, ∃ rest k, cs = 'c' :: q :: rest ∧ ClosesAt q rest k := by
  by_cases hfront : ∃ q ∈ quotes, ∃ rest, cs = 'c' :: q :: rest
  · obtain ⟨q, hq, rest, rfl⟩ := hfront
    by_cases hcloses : ∃ k, ClosesAt q rest k
    · obtain ⟨k, hcloses⟩ := hcloses
      exact .inr ⟨q, hq, rest, k, rfl, hcloses⟩
    · exact .inl (charString_misses hq (closedChars_eq_none hq (not_exists.1 hcloses)))
  · refine .inl (Misses.named (quoted_misses fun t ht c hc hquote => hfront ?_))
    obtain ⟨rest, rfl⟩ := List.head?_eq_some_iff.1 hc
    exact ⟨c, hquote, rest, ht⟩

/-- A string of characters is read just from the texts that consist of the letter, a quote and a
rest in which the string closes; it is what stands before the closing quote, and nothing is left.
All other texts are refused. -/
theorem charString_language (t : String) :
    (∀ op left, readFront charString t = .ok (op, left) ↔ left = [] ∧ ∃ q ∈ quotes, ∃ rest k,
      t.toList = 'c' :: q :: rest ∧ ClosesAt q rest k ∧ op = .chars (String.ofList (rest.take k))) ∧
    ((∃ read, readFront charString t = .ok read) ∨
      ∃ place, readFront charString t = .error (.unreadable place)) := by
  have hclosed : ∀ q ∈ quotes, ∀ rest k, t.toList = 'c' :: q :: rest → ClosesAt q rest k →
      readFront charString t = .ok (.chars (String.ofList (rest.take k)), []) := by
    intro q hq rest k htext hcloses
    have hread := charString_reads hq (hcloses.closedChars hq)
    rw [List.reverse_reverse] at hread
    exact hread.readFront (by rw [htext, List.append_nil])
  refine ⟨fun op left => ⟨fun hread => ?_, ?_⟩, ?_⟩
  · obtain hmiss | ⟨q, hq, rest, k, htext, hcloses⟩ := charString_misses_or_closes t.toList
    · obtain ⟨place, herror⟩ := hmiss.readFront
      rw [hread] at herror
      cases herror
    · obtain ⟨rfl, rfl⟩ :=
        Prod.mk.inj (Except.ok.inj (hread.symm.trans (hclosed q hq rest k htext hcloses)))
      exact ⟨rfl, q, hq, rest, k, htext, hcloses, rfl⟩
  · rintro ⟨rfl, q, hq, rest, k, htext, hcloses, rfl⟩
    exact hclosed q hq rest k htext hcloses
  · obtain hmiss | ⟨q, hq, rest, k, htext, hcloses⟩ := charString_misses_or_closes t.toList
    · exact .inr hmiss.readFront
    · exact .inl ⟨_, hclosed q hq rest k htext hcloses⟩

end Assembler.Grammar
