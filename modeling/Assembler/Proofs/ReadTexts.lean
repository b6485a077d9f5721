import Mathlib.Data.List.TakeWhile
import Mathlib.Tactic.Common
import Assembler.Source

/-! # Texts that readers read

A reader reads a text in front of a rest if it yields a value there and leaves the rest (`Reads`),
and misses characters if it does not yield anything (`Misses`).  These are given combinator by
combinator, so that a grammar can be read forwards.  In the other direction `Finds` says of what
form the text is that a reader has taken. -/

namespace Assembler.Reader
set_option autoImplicit false

variable {α β : Type} {p q : Reader α} {f : α → Reader β} {a : α} {b : β}
  {s t text rest cs : List Char} {isPart : Char → Bool} {what name : String}

/-- A reader takes a text in front of a rest and yields a value. -/
def Reads (p : Reader α) (text : List Char) (a : α) (rest : List Char) : Prop :=
  ∀ i, p ⟨i, text ++ rest⟩ = .done a ⟨i + text.length, rest⟩

/-- A reader yields nothing before these characters. -/
def Misses (p : Reader α) (cs : List Char) : Prop := ∀ i, ∃ j e, p ⟨i, cs⟩ = .miss j e

/-- What a reader takes is of a form, which may depend on the value and on what is left. -/
def Finds (p : Reader α) (R : List Char → α → List Char → Prop) : Prop :=
  ∀ c a next, p c = .done a next → ∃ text, c.rest = text ++ next.rest ∧ R text a next.rest

/-- What follows does not begin with a character of a class. -/
def Ends (isPart : Char → Bool) (rest : List Char) : Prop := ∀ c ∈ rest.head?, isPart c = false

theorem ends_nil (isPart : Char → Bool) : Ends isPart [] := by
  intro c hc
  cases hc

theorem ends_cons {c : Char} : Ends isPart (c :: rest) ↔ isPart c = false := by simp [Ends]

/-- A class whose characters all belong to another one. -/
theorem Ends.mono {isPart' : Char → Bool} (h : Ends isPart rest)
    (hsub : ∀ c, isPart' c = true → isPart c = true) :
    Ends isPart' rest := by
  intro c hc
  have hnot := h c hc
  by_contra hpart
  rw [Bool.not_eq_false] at hpart
  rw [hsub c hpart] at hnot
  cases hnot

theorem Ends.append (h : Ends isPart cs) (h' : Ends isPart rest) : Ends isPart (cs ++ rest) := by
  cases cs with
  | nil => exact h'
  | cons c cs => exact ends_cons.2 (ends_cons.1 h)

theorem Ends.left (h : Ends isPart (cs ++ rest)) : Ends isPart cs := by
  cases cs with
  | nil => exact ends_nil _
  | cons c cs => exact ends_cons.2 (ends_cons.1 h)

theorem takeWhile_append_of_ends (htext : ∀ c ∈ text, isPart c = true) (hrest : Ends isPart rest) :
    (text ++ rest).takeWhile isPart = text ∧ (text ++ rest).dropWhile isPart = rest := by
  rw [List.takeWhile_append_of_pos htext, List.dropWhile_append_of_pos htext]
  cases rest with
  | nil => simp
  | cons c rest =>
    have hc := ends_cons.1 hrest
    simp [hc]

theorem ends_dropWhile (isPart : Char → Bool) (cs : List Char) :
    Ends isPart (cs.dropWhile isPart) := by
  intro c hc
  have hnot := List.head?_dropWhile_not isPart cs
  rw [Option.mem_def.1 hc] at hnot
  exact hnot

/-! ## Sequences -/

theorem Reads.bind (hp : p.Reads s a (t ++ rest)) (hf : (f a).Reads t b rest) :
    (p >>= f).Reads (s ++ t) b rest := by
  intro i
  change andThen p f _ = _
  have hread := hf (i + s.length)
  unfold andThen
  rw [List.append_assoc, hp i, List.length_append, ← Nat.add_assoc]
  exact hread

theorem reads_pure (a : α) (rest : List Char) : (pure a : Reader α).Reads [] a rest := fun _ => rfl

/-- The second reader takes nothing. -/
theorem Reads.bind_nil (hp : p.Reads text a rest) (hf : (f a).Reads [] b rest) :
    (p >>= f).Reads text b rest := by
  have hread := Reads.bind (t := []) hp hf
  rwa [List.append_nil] at hread

theorem Reads.map {g : α → β} (hp : p.Reads text a rest) : (g <$> p).Reads text (g a) rest :=
  Reads.bind_nil (f := fun a => pure (g a)) hp (reads_pure (g a) rest)

theorem Reads.named (hp : p.Reads text a rest) : (named name p).Reads text a rest := by
  intro i
  unfold Reader.named
  rw [hp i]

theorem Reads.endingWith {q : Reader β} (hp : p.Reads s a (t ++ rest)) (hq : q.Reads t b rest) :
    (endingWith p q).Reads (s ++ t) a rest := by
  intro i
  have hread := hq (i + s.length)
  unfold Reader.endingWith
  rw [List.append_assoc, hp i]
  simp only [hread, List.length_append, ← Nat.add_assoc]

theorem Reads.ahead (hp : p.Reads text a rest) : (ahead p).Reads [] a (text ++ rest) := by
  intro i
  unfold Reader.ahead
  rw [List.nil_append, hp i]
  rfl

theorem Misses.bind (hp : p.Misses cs) : (p >>= f).Misses cs := by
  intro i
  obtain ⟨j, e, hmiss⟩ := hp i
  refine ⟨j, e, ?_⟩
  change andThen p f _ = _
  unfold andThen
  rw [hmiss]

theorem Reads.bind_misses (hp : p.Reads s a t) (hf : (f a).Misses t) :
    (p >>= f).Misses (s ++ t) := by
  intro i
  obtain ⟨j, e, hmiss⟩ := hf (i + s.length)
  refine ⟨j, e, ?_⟩
  change andThen p f _ = _
  unfold andThen
  rw [hp i]
  exact hmiss

theorem Misses.map {g : α → β} (hp : p.Misses cs) : (g <$> p).Misses cs := Misses.bind hp

theorem Misses.named (hp : p.Misses cs) : (named name p).Misses cs := by
  intro i
  obtain ⟨j, e, hmiss⟩ := hp i
  unfold Reader.named
  rw [hmiss]
  dsimp only
  split <;> exact ⟨_, _, rfl⟩

theorem Misses.endingWith {q : Reader β} (hp : p.Misses cs) : (endingWith p q).Misses cs := by
  intro i
  obtain ⟨j, e, hmiss⟩ := hp i
  exact ⟨j, e, by unfold Reader.endingWith; rw [hmiss]⟩

theorem Reads.endingWith_misses {q : Reader β} (hp : p.Reads s a t) (hq : q.Misses t) :
    (Reader.endingWith p q).Misses (s ++ t) := by
  intro i
  obtain ⟨j, e, hmiss⟩ := hq (i + s.length)
  exact ⟨j, "ends with " ++ e, by unfold Reader.endingWith; rw [hp i]; simp only [hmiss]⟩

theorem Misses.ahead (hp : p.Misses cs) : (ahead p).Misses cs := by
  intro i
  obtain ⟨j, e, hmiss⟩ := hp i
  exact ⟨i, e, by unfold Reader.ahead; rw [hmiss]⟩

/-! ## Choices -/

theorem Reads.orElse (hp : p.Reads text a rest) : (orElse p q).Reads text a rest := by
  intro i
  unfold Reader.orElse
  rw [hp i]

theorem Misses.orElse_reads (hp : p.Misses (text ++ rest)) (hq : q.Reads text a rest) :
    (orElse p q).Reads text a rest := by
  intro i
  obtain ⟨j, e, hmiss⟩ := hp i
  unfold Reader.orElse
  rw [hmiss]
  exact hq i

theorem Misses.orElse (hp : p.Misses cs) (hq : q.Misses cs) : (orElse p q).Misses cs := by
  intro i
  obtain ⟨j, e, hmiss⟩ := hp i
  unfold Reader.orElse
  rw [hmiss]
  exact hq i

theorem Reads.optional (hp : p.Reads text a rest) : (optional p).Reads text (some a) rest := by
  intro i
  unfold Reader.optional
  rw [hp i]

theorem Misses.optional (hp : p.Misses rest) : (optional p).Reads [] none rest := by
  intro i
  obtain ⟨j, e, hmiss⟩ := hp i
  unfold Reader.optional
  rw [List.nil_append, hmiss]
  rfl

theorem Misses.barring_reads {x : Reader String} (hx : x.Misses (text ++ rest))
    (hp : p.Reads text a rest) :
    (barring p x).Reads text a rest := by
  intro i
  obtain ⟨j, e, hmiss⟩ := hx i
  unfold Reader.barring
  rw [hmiss]
  exact hp i

theorem Misses.barring {x : Reader String} (hx : x.Misses cs) (hp : p.Misses cs) :
    (barring p x).Misses cs := by
  intro i
  obtain ⟨j, e, hmiss⟩ := hx i
  unfold Reader.barring
  rw [hmiss]
  exact hp i

theorem Reads.barring_misses {x : Reader String} {bar : String} (hx : x.Reads text bar rest) :
    (barring p x).Misses (text ++ rest) := by
  intro i
  refine ⟨i, "something other than " ++ bar, ?_⟩
  unfold Reader.barring
  rw [hx i]

/-- At the end of a text the second reader is not asked. -/
theorem orAtStart_ending_reads_nil (q : Reader Unit) : (orAtStart ending q).Reads [] () [] :=
  fun _ => rfl

theorem Reads.orAtStart_ending {q : Reader Unit} {c : Char} {u : Unit}
    (hq : q.Reads (c :: text) u rest) :
    (orAtStart ending q).Reads (c :: text) u rest := by
  intro i
  have hread := hq i
  simpa [orAtStart, ending] using hread

theorem Misses.orAtStart_ending {q : Reader Unit} {c : Char} (hq : q.Misses (c :: cs)) :
    (orAtStart ending q).Misses (c :: cs) := by
  intro i
  obtain ⟨j, e, hmiss⟩ := hq i
  exact ⟨j, e, by simpa [orAtStart, ending] using hmiss⟩

/-! ## Faults -/

/-- A decimal number of too many digits stops a reader before these characters. -/
def Stops (p : Reader α) (cs : List Char) : Prop :=
  ∀ i, ∃ count, p ⟨i, cs⟩ = .stop (.tooManyDigits count)

theorem Stops.bind (hp : p.Stops cs) : (p >>= f).Stops cs := by
  intro i
  obtain ⟨x, hstop⟩ := hp i
  refine ⟨x, ?_⟩
  change andThen p f _ = _
  unfold andThen
  rw [hstop]

theorem Reads.bind_stops (hp : p.Reads s a t) (hf : (f a).Stops t) : (p >>= f).Stops (s ++ t) := by
  intro i
  obtain ⟨x, hstop⟩ := hf (i + s.length)
  refine ⟨x, ?_⟩
  change andThen p f _ = _
  unfold andThen
  rw [hp i]
  exact hstop

theorem Stops.named (hp : p.Stops cs) : (named name p).Stops cs := by
  intro i
  obtain ⟨x, hstop⟩ := hp i
  exact ⟨x, by unfold Reader.named; rw [hstop]⟩

theorem Stops.orElse (hp : p.Stops cs) : (orElse p q).Stops cs := by
  intro i
  obtain ⟨x, hstop⟩ := hp i
  exact ⟨x, by unfold Reader.orElse; rw [hstop]⟩

theorem Stops.map {g : α → β} (hp : p.Stops cs) : (g <$> p).Stops cs := Stops.bind hp

theorem Misses.orElse_stops (hp : p.Misses cs) (hq : q.Stops cs) :
    (Reader.orElse p q).Stops cs := by
  intro i
  obtain ⟨j, e, hmiss⟩ := hp i
  unfold Reader.orElse
  rw [hmiss]
  exact hq i

theorem Stops.barring {x : Reader String} (hx : x.Stops cs) : (barring p x).Stops cs := by
  intro i
  obtain ⟨y, hstop⟩ := hx i
  exact ⟨y, by unfold Reader.barring; rw [hstop]⟩

/-! ## Characters -/

theorem misses_expecting (what : String) (cs : List Char) : (expecting what : Reader α).Misses cs :=
  fun i => ⟨i, what, rfl⟩

theorem reads_run (htext : ∀ c ∈ text, isPart c = true) (hrest : Ends isPart rest) :
    (run isPart).Reads text text rest := by
  intro i
  obtain ⟨htake, hdrop⟩ := takeWhile_append_of_ends htext hrest
  simp only [run, htake, hdrop]

theorem reads_run1 (what : String) (hne : text ≠ []) (htext : ∀ c ∈ text, isPart c = true)
    (hrest : Ends isPart rest) :
    (run1 isPart what).Reads text text rest := by
  intro i
  have hrun := reads_run htext hrest i
  obtain ⟨c, tail, rfl⟩ := List.exists_cons_of_ne_nil hne
  simpa [run1, htext c List.mem_cons_self] using hrun

theorem misses_run1 (h : Ends isPart cs) : (run1 isPart what).Misses cs := by
  intro i
  refine ⟨i, what, ?_⟩
  cases cs with
  | nil => rfl
  | cons c cs => simp [run1, ends_cons.1 h]

theorem reads_headAndRun {isFirst : Char → Bool} {c : Char} (hc : isFirst c = true)
    (htext : ∀ c ∈ text, isPart c = true) (hrest : Ends isPart rest) :
    (headAndRun isFirst isPart what).Reads (c :: text) (c :: text) rest := by
  intro i
  obtain ⟨htake, hdrop⟩ := takeWhile_append_of_ends htext hrest
  simp only [headAndRun, List.cons_append, hc, if_true, htake, hdrop, List.length_cons]
  congr 2
  omega

theorem misses_headAndRun {isFirst : Char → Bool} (h : Ends isFirst cs) :
    (headAndRun isFirst isPart what).Misses cs := by
  intro i
  refine ⟨i, what, ?_⟩
  cases cs with
  | nil => rfl
  | cons c cs => simp [headAndRun, ends_cons.1 h]

theorem reads_oneOf {xs : List Char} {c : Char} (hc : c ∈ xs) (rest : List Char) :
    (oneOf xs).Reads [c] c rest := by
  intro i
  simp [oneOf, charWhere, hc]

theorem misses_oneOf {xs : List Char} (h : ∀ c ∈ cs.head?, c ∉ xs) : (oneOf xs).Misses cs := by
  intro i
  refine ⟨i, "one of " ++ String.ofList xs, ?_⟩
  cases cs with
  | nil => rfl
  | cons c cs =>
    have hc := h c rfl
    simp [oneOf, charWhere, hc]

theorem sharedFront_append (s rest : List Char) : sharedFront s (s ++ rest) = s.length := by
  induction s with
  | nil => simp [sharedFront]
  | cons c s ih => simp [sharedFront, ih]

theorem prefix_of_sharedFront {s cs : List Char} (h : sharedFront s cs = s.length) : s <+: cs := by
  induction s generalizing cs with
  | nil => exact List.nil_prefix
  | cons c s ih =>
    cases cs with
    | nil => simp [sharedFront] at h
    | cons c' cs =>
      rw [sharedFront] at h
      split at h
      · next heq =>
        rw [heq]
        exact (List.prefix_cons_inj c').2 (ih (by simpa using h))
      · simp at h

theorem reads_literal (s : String) (rest : List Char) : (literal s).Reads s.toList () rest := by
  intro i
  simp [literal, sharedFront_append, Cursor.advance]

theorem misses_literal {s : String} (h : ¬ s.toList <+: cs) : (literal s).Misses cs := by
  intro i
  refine ⟨i + sharedFront s.toList cs, s, ?_⟩
  unfold literal
  dsimp only
  rw [if_neg fun hfront => h (prefix_of_sharedFront hfront)]

/-! ## Things between separators -/

/-- Further things, each behind a separator, in front of a rest. -/
inductive Items (R : List Char → α → List Char → Prop) (S : List Char → List Char → Prop) :
    List Char → List α → List Char → Prop
  | nil (rest : List Char) : Items R S [] [] rest
  | cons {sep text more rest : List Char} {a : α} {as : List α} : S sep (text ++ more ++ rest) →
      R text a (more ++ rest) →
      Items R S more as rest → Items R S (sep ++ text ++ more) (a :: as) rest

/-- There is no further thing: the separator is missing, or the thing behind it. -/
def NoItem (p : Reader α) (sep : Reader β) (cs : List Char) : Prop :=
  sep.Misses cs ∨ ∃ s t b, cs = s ++ t ∧ sep.Reads s b t ∧ p.Misses t

theorem reads_furtherItems {sep : Reader β} {as : List α}
    (hitems : Items p.Reads (fun s t => s ≠ [] ∧ ∃ b, sep.Reads s b t) text as rest)
    (hend : NoItem p sep rest) (fuel : Nat) (hfuel : text.length ≤ fuel) (got : List α) :
    (furtherItems p sep fuel got).Reads text (got ++ as) rest := by
  induction hitems generalizing fuel got with
  | nil rest =>
    intro i
    rw [List.append_nil]
    cases fuel with
    | zero => rfl
    | succ fuel =>
      rw [furtherItems, List.nil_append]
      obtain hsep | ⟨s, t, b, rfl, hsep, hp⟩ := hend
      · obtain ⟨j, e, hmiss⟩ := hsep i
        simp [hmiss]
      · obtain ⟨j, e, hmiss⟩ := hp (i + s.length)
        simp [hsep i, hmiss]
  | @cons sepText text more rest a as hsep hread hmore ih =>
    obtain ⟨hne, b, hsep⟩ := hsep
    have hpos := List.length_pos_iff.2 hne
    cases fuel with
    | zero =>
      simp only [List.length_append] at hfuel
      omega
    | succ fuel =>
      intro i
      have hlater := ih hend fuel (by simp only [List.length_append] at hfuel; omega) (got ++ [a])
        (i + sepText.length + text.length)
      have hsep := hsep i
      have hread := hread (i + sepText.length)
      simp only [List.append_assoc] at hsep hread hlater
      simp only [furtherItems, List.append_assoc, hsep, hread, hlater, List.length_append,
        ← Nat.add_assoc]
      rfl

theorem reads_separated {sep : Reader β} {as : List α} (hread : p.Reads s a (text ++ rest))
    (hitems : Items p.Reads (fun s t => s ≠ [] ∧ ∃ b, sep.Reads s b t) text as rest)
    (hend : NoItem p sep rest) :
    (separated p sep).Reads (s ++ text) (a :: as) rest := by
  intro i
  have hlater := reads_furtherItems hitems hend (text ++ rest).length (by simp) [a] (i + s.length)
  unfold separated
  rw [List.append_assoc, hread i]
  simp only [hlater]
  rw [List.length_append, ← Nat.add_assoc]
  rfl

theorem Misses.separated {sep : Reader β} (hp : p.Misses rest) :
    (separated p sep).Reads [] [] rest := by
  intro i
  obtain ⟨j, e, hmiss⟩ := hp i
  unfold Reader.separated
  rw [List.nil_append, hmiss]
  rfl

/-! ## What was read -/

variable {R : List Char → α → List Char → Prop} {S : List Char → β → List Char → Prop}

theorem Finds.mono {R' : List Char → α → List Char → Prop} (hp : p.Finds R)
    (h : ∀ text a rest, R text a rest → R' text a rest) :
    p.Finds R' := by
  intro c a next hdone
  obtain ⟨text, hrest, hR⟩ := hp c a next hdone
  exact ⟨text, hrest, h _ _ _ hR⟩

theorem finds_pure (a : α) : (pure a : Reader α).Finds fun text x _ => text = [] ∧ x = a := by
  intro c x next h
  obtain ⟨rfl, rfl⟩ := Outcome.done.inj h
  exact ⟨[], rfl, rfl, rfl⟩

theorem finds_expecting (what : String) : (expecting what : Reader α).Finds R := by
  intro c a next h
  cases h

theorem Finds.bind {S : α → List Char → β → List Char → Prop} (hp : p.Finds R)
    (hf : ∀ a, (f a).Finds (S a)) :
    (p >>= f).Finds fun text b rest => ∃ s t a, text = s ++ t ∧ R s a (t ++ rest) ∧
      S a t b rest := by
  intro c b last h
  change andThen p f c = .done b last at h
  unfold andThen at h
  split at h
  · next a next ha =>
    obtain ⟨s, hs, hR⟩ := hp c a next ha
    obtain ⟨t, ht, hS⟩ := hf a next b last h
    exact ⟨s ++ t, by rw [hs, ht, List.append_assoc], s, t, a, rfl, ht ▸ hR, hS⟩
  · cases h
  · cases h

theorem Finds.map {g : α → β} (hp : p.Finds R) : (g <$> p).Finds fun text b rest => ∃ a, b = g a ∧
    R text a rest := by
  intro c b next h
  obtain ⟨text, hrest, s, t, a, rfl, hR, rfl, rfl⟩ :=
    Finds.bind hp (fun a => finds_pure (g a)) c b next h
  exact ⟨s ++ [], hrest, a, rfl, by simpa using hR⟩

theorem Finds.named (hp : p.Finds R) : (named name p).Finds R := by
  intro c a next h
  unfold Reader.named at h
  split at h
  · split at h <;> cases h
  · exact hp c a next h

/-- Where a choice misses, each of its readers does. -/
theorem orElse_eq_miss {c : Cursor} {i : Nat} {e : String} (h : orElse p q c = .miss i e) :
    (∃ j e', p c = .miss j e') ∧ q c = .miss i e := by
  unfold orElse at h
  split at h
  · next j e' hmiss => exact ⟨⟨j, e', hmiss⟩, h⟩
  · next hnot => exact absurd h (hnot i e)

/-- The second reader is asked only where the first one misses. -/
theorem Finds.orElse_of_miss (hp : p.Finds R)
    (hq : ∀ c a next, (∃ i e, p c = .miss i e) → q c = .done a next →
      ∃ text, c.rest = text ++ next.rest ∧ R text a next.rest) :
    (orElse p q).Finds R := by
  intro c a next h
  unfold Reader.orElse at h
  split at h
  · next i e hmiss => exact hq c a next ⟨i, e, hmiss⟩ h
  · exact hp c a next h

theorem Finds.orElse (hp : p.Finds R) (hq : q.Finds R) : (orElse p q).Finds R :=
  hp.orElse_of_miss fun c a next _ => hq c a next

theorem Finds.orAtStart (hp : p.Finds R) (hq : q.Finds R) : (orAtStart p q).Finds R := by
  intro c a next h
  unfold Reader.orAtStart at h
  split at h
  · split at h
    · exact hq c a next h
    · cases h
  · exact hp c a next h

theorem Finds.endingWith {q : Reader β} (hp : p.Finds R) (hq : q.Finds S) :
    (endingWith p q).Finds fun text a rest => ∃ s t b, text = s ++ t ∧ R s a (t ++ rest) ∧
      S t b rest := by
  intro c a last h
  unfold Reader.endingWith at h
  split at h
  · next x mid hx =>
    split at h
    · next b last' hb =>
      obtain ⟨rfl, rfl⟩ := Outcome.done.inj h
      obtain ⟨s, hs, hR⟩ := hp c x mid hx
      obtain ⟨t, ht, hS⟩ := hq mid b last' hb
      exact ⟨s ++ t, by rw [hs, ht, List.append_assoc], s, t, b, rfl, ht ▸ hR, hS⟩
    · cases h
    · cases h
  · next hnot => exact absurd h (hnot a last)

theorem Finds.optional (hp : p.Finds R) :
    (optional p).Finds fun text read rest => (text = [] ∧ read = none) ∨ ∃ a, read = some a ∧
      R text a rest := by
  intro c read next h
  unfold Reader.optional at h
  split at h
  · next a mid ha =>
    obtain ⟨rfl, rfl⟩ := Outcome.done.inj h
    obtain ⟨text, hrest, hR⟩ := hp c a mid ha
    exact ⟨text, hrest, .inr ⟨a, rfl, hR⟩⟩
  · obtain ⟨rfl, rfl⟩ := Outcome.done.inj h
    exact ⟨[], rfl, .inl ⟨rfl, rfl⟩⟩
  · cases h

theorem finds_ahead (p : Reader α) : (ahead p).Finds fun text _ _ => text = [] := by
  intro c a next h
  unfold ahead at h
  split at h
  · obtain ⟨-, rfl⟩ := Outcome.done.inj h
    exact ⟨[], rfl, rfl⟩
  · cases h
  · cases h

theorem Finds.barring (hp : p.Finds R) (x : Reader String) : (barring p x).Finds R := by
  intro c a next h
  unfold Reader.barring at h
  split at h
  · cases h
  · exact hp c a next h
  · cases h

theorem finds_run (isPart : Char → Bool) :
    (run isPart).Finds fun text cs rest => cs = text ∧ (∀ c ∈ text, isPart c = true) ∧
      Ends isPart rest := by
  intro c cs next h
  obtain ⟨rfl, rfl⟩ := Outcome.done.inj h
  refine ⟨_, (List.takeWhile_append_dropWhile (p := isPart)).symm, rfl, fun x hx => ?_,
    ends_dropWhile isPart _⟩
  exact List.all_eq_true.1 List.all_takeWhile x hx

theorem finds_run1 (isPart : Char → Bool) (what : String) :
    (run1 isPart what).Finds fun text cs rest =>
    cs = text ∧ text ≠ [] ∧ (∀ c ∈ text, isPart c = true) ∧ Ends isPart rest := by
  intro c cs next h
  unfold run1 at h
  split at h
  · cases h
  · next x xs hrest =>
    split at h
    · next hx =>
      obtain ⟨_, heq, rfl, htext, hends⟩ := finds_run isPart c cs next h
      refine ⟨cs, heq, rfl, ?_, htext, hends⟩
      rintro rfl
      rw [hrest, List.nil_append] at heq
      rw [← heq, ends_cons, hx] at hends
      cases hends
    · cases h

theorem finds_headAndRun (isFirst isPart : Char → Bool) (what : String) :
    (headAndRun isFirst isPart what).Finds fun text cs rest =>
      cs = text ∧ (∃ c tail, text = c :: tail ∧ isFirst c = true ∧ ∀ x ∈ tail, isPart x = true) ∧
        Ends isPart rest := by
  intro c cs next h
  unfold headAndRun at h
  split at h
  · cases h
  · next x xs hrest =>
    split at h
    · next hx =>
      obtain ⟨rfl, rfl⟩ := Outcome.done.inj h
      refine ⟨x :: xs.takeWhile isPart, ?_, rfl, ⟨x, _, rfl, hx, fun y hy => ?_⟩,
        ends_dropWhile isPart xs⟩
      · rw [hrest, List.cons_append]
        exact congrArg _ (List.takeWhile_append_dropWhile (p := isPart)).symm
      · exact List.all_eq_true.1 List.all_takeWhile y hy
    · cases h

theorem finds_oneOf (xs : List Char) : (oneOf xs).Finds fun text c _ => text = [c] ∧ c ∈ xs := by
  intro c x next h
  unfold oneOf charWhere at h
  split at h
  · cases h
  · next y ys hrest =>
    split at h
    · next hy =>
      obtain ⟨rfl, rfl⟩ := Outcome.done.inj h
      exact ⟨[y], hrest, rfl, by simpa using hy⟩
    · cases h

theorem finds_literal (s : String) : (literal s).Finds fun text _ _ => text = s.toList := by
  intro c a next h
  unfold literal at h
  dsimp only at h
  split at h
  · next hfront =>
    obtain ⟨-, rfl⟩ := Outcome.done.inj h
    obtain ⟨rest, hrest⟩ := prefix_of_sharedFront hfront
    refine ⟨s.toList, ?_, rfl⟩
    rw [Cursor.advance, hfront, ← hrest, List.drop_left]
  · cases h

theorem finds_ending : ending.Finds fun text _ rest => text = [] ∧ rest = [] := by
  intro c a next h
  unfold ending at h
  split at h
  · next hrest =>
    obtain ⟨-, rfl⟩ := Outcome.done.inj h
    exact ⟨[], rfl, rfl, hrest⟩
  · cases h

theorem Finds.furtherItems {sep : Reader β} (hp : p.Finds R) (hsep : sep.Finds S) (fuel : Nat)
    (got : List α) :
    (furtherItems p sep fuel got).Finds fun text as rest =>
      ∃ more, as = got ++ more ∧ Items R (fun s t => ∃ b, S s b t) text more rest := by
  induction fuel generalizing got with
  | zero =>
    intro c as next h
    obtain ⟨rfl, rfl⟩ := Outcome.done.inj h
    exact ⟨[], rfl, [], (List.append_nil _).symm, .nil _⟩
  | succ fuel ih =>
    intro c as last h
    unfold Reader.furtherItems at h
    split at h
    · cases h
    · obtain ⟨rfl, rfl⟩ := Outcome.done.inj h
      exact ⟨[], rfl, [], (List.append_nil _).symm, .nil _⟩
    · next b next hb =>
      split at h
      · cases h
      · obtain ⟨rfl, rfl⟩ := Outcome.done.inj h
        exact ⟨[], rfl, [], (List.append_nil _).symm, .nil _⟩
      · next a mid ha =>
        obtain ⟨s, hs, hS⟩ := hsep c b next hb
        obtain ⟨t, ht, hR⟩ := hp next a mid ha
        obtain ⟨text, htext, more, rfl, hitems⟩ := ih (got ++ [a]) mid as last h
        rw [ht, htext, ← List.append_assoc] at hS
        rw [htext] at hR
        refine ⟨s ++ t ++ text, by rw [hs, ht, htext]; simp, a :: more, by simp,
          .cons ⟨b, hS⟩ hR hitems⟩

theorem Finds.separated {sep : Reader β} (hp : p.Finds R) (hsep : sep.Finds S) :
    (separated p sep).Finds fun text as rest => (text = [] ∧ as = []) ∨
      ∃ s t a more, text = s ++ t ∧ as = a :: more ∧ R s a (t ++ rest) ∧
      Items R (fun s t => ∃ b, S s b t) t more rest := by
  intro c as last h
  unfold Reader.separated at h
  split at h
  · cases h
  · obtain ⟨rfl, rfl⟩ := Outcome.done.inj h
    exact ⟨[], rfl, .inl ⟨rfl, rfl⟩⟩
  · next a next ha =>
    obtain ⟨s, hs, hR⟩ := hp c a next ha
    obtain ⟨t, ht, more, rfl, hitems⟩ := hp.furtherItems hsep _ _ next as last h
    exact ⟨s ++ t, by rw [hs, ht, List.append_assoc],
      .inr ⟨s, t, a, more, rfl, rfl, ht ▸ hR, hitems⟩⟩

theorem Items.mono {R' : List Char → α → List Char → Prop} {S S' : List Char → List Char → Prop}
    {as : List α} (h : Items R S text as rest) (hR : ∀ text a rest, R text a rest → R' text a rest)
    (hS : ∀ s t, S s t → S' s t) :
    Items R' S' text as rest := by
  induction h with
  | nil rest => exact .nil rest
  | cons hsep hread _ ih => exact .cons (hS _ _ hsep) (hR _ _ _ hread) ih

/-! ## Whole texts -/

theorem Reads.readFront {s : String} (h : p.Reads text a rest) (hs : s.toList = text ++ rest) :
    readFront p s = .ok (a, rest) := by
  have hdone := h 0
  unfold Reader.readFront Cursor.start
  rw [hs, hdone]

theorem Misses.readFront {s : String} (h : p.Misses s.toList) :
    ∃ place, readFront p s = .error (.unreadable place) := by
  obtain ⟨j, e, hmiss⟩ := h 0
  unfold Reader.readFront Cursor.start
  rw [hmiss]
  exact ⟨_, rfl⟩

theorem Stops.readFront {s : String} (h : p.Stops s.toList) :
    ∃ count, readFront p s = .error (.tooManyDigits count) := by
  obtain ⟨count, hstop⟩ := h 0
  unfold Reader.readFront Cursor.start
  rw [hstop]
  exact ⟨count, rfl⟩

theorem Finds.readFront {s : String} (hp : p.Finds R) (h : readFront p s = .ok (a, rest)) :
    ∃ text, s.toList = text ++ rest ∧ R text a rest := by
  unfold Reader.readFront at h
  split at h
  · next x next hx =>
    obtain ⟨rfl, rfl⟩ := Prod.mk.inj (Except.ok.inj h)
    exact hp (.start s) x next hx
  · cases h
  · cases h

end Assembler.Reader
