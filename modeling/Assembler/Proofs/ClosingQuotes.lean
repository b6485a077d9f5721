import Mathlib.Data.List.TakeWhile
import Mathlib.Data.Option.Basic
import Assembler.Grammar

/-! # Closing quotes

A string of characters ends in its closing quote, with blanks behind it or a comment.  It is read
from behind, and what the readers find there can be said without them: `closedChars` gives the
characters of the string, and `closeString_eq` says that the string is made of these. -/

namespace Assembler.Grammar
open Reader
set_option autoImplicit false

variable {q : Char} {cs back : List Char}

/-- The characters before a closing quote that stands first, blanks aside, in a text read
backwards. -/
def beforeQuote (q : Char) (cs : List Char) : Option (List Char) :=
  match cs.dropWhile Text.isBlank with
  | [] => none
  | c :: rest => if c = q then some rest else none

/-- The characters before a closing quote with a comment behind it. -/
def beforeCommented (q : Char) (cs : List Char) : Option (List Char) :=
  match cs.dropWhile (fun c => !(c == q || c == ';')) with
  | [] => none
  | c :: rest => if c = ';' then beforeQuote q rest else none

/-- The characters of a string whose rest of line is read backwards: a comment after the closing
quote is passed over if it holds neither that quote nor a semicolon. -/
def closedChars (q : Char) (cs : List Char) : Option (List Char) :=
  beforeCommented q cs <|> beforeQuote q cs

theorem beforeQuote_suffix (h : beforeQuote q cs = some back) : back <:+ cs := by
  unfold beforeQuote at h
  split at h
  · cases h
  · next c rest hdrop =>
    split at h
    · obtain rfl := Option.some.inj h
      exact (List.suffix_cons c rest).trans (hdrop ▸ List.dropWhile_suffix _)
    · cases h

theorem closedChars_suffix (h : closedChars q cs = some back) : back <:+ cs := by
  obtain h | ⟨-, h⟩ := (Option.orElse_eq_some _ _ _).1 h
  · unfold beforeCommented at h
    split at h
    · cases h
    · next c rest hdrop =>
      split at h
      · exact (beforeQuote_suffix h).trans
          ((List.suffix_cons c rest).trans (hdrop ▸ List.dropWhile_suffix _))
      · cases h
  · exact beforeQuote_suffix h

/-! ## What the readers find -/

/-- Reading gives what an option holds, or misses if it holds nothing. -/
def Meets (o : Option (List Char)) : Outcome (List Char) → Prop
  | .done back _ => o = some back
  | .miss _ _ => o = none
  | .stop _ => False

/-- A single character is read if it stands first. -/
theorem literal_bind {α : Type} (q : Char) (p : Reader α) (i : Nat) (cs : List Char) :
    (literal (String.singleton q) >>= fun _ => p) ⟨i, cs⟩ =
      match cs with
      | [] => .miss i (String.singleton q)
      | c :: rest => if c = q then p ⟨i + 1, rest⟩ else .miss i (String.singleton q) := by
  change andThen (literal (String.singleton q)) (fun _ => p) ⟨i, cs⟩ = _
  rcases cs with _ | ⟨c, rest⟩
  · simp [andThen, literal, sharedFront]
  · by_cases hc : q = c
    · simp [andThen, literal, sharedFront, Cursor.advance, hc]
    · simp [andThen, literal, sharedFront, hc, Ne.symm hc]

theorem run_bind {α : Type} (p : Char → Bool) (f : List Char → Reader α) (i : Nat)
    (cs : List Char) :
    (run p >>= f) ⟨i, cs⟩ = f (cs.takeWhile p) ⟨i + (cs.takeWhile p).length, cs.dropWhile p⟩ := rfl

theorem meets_closingQuote (q : Char) (i : Nat) (cs : List Char) :
    Meets (beforeQuote q cs) (closingQuote q ⟨i, cs⟩) := by
  rw [closingQuote, run_bind, literal_bind, beforeQuote]
  cases cs.dropWhile Text.isBlank with
  | nil => rfl
  | cons c rest =>
    dsimp only
    split
    · exact congrArg some (List.takeWhile_eq_self_iff.2 fun _ _ => rfl).symm
    · rfl

theorem meets_commentedQuote (q : Char) (i : Nat) (cs : List Char) :
    Meets (beforeCommented q cs) (commentedQuote q ⟨i, cs⟩) := by
  rw [commentedQuote, run_bind, show ";" = String.singleton ';' from rfl, literal_bind,
    beforeCommented]
  cases cs.dropWhile (fun c => !(c == q || c == ';')) with
  | nil => rfl
  | cons c rest =>
    dsimp only
    split
    · exact meets_closingQuote q _ rest
    · rfl

theorem meets_orElse {o o' : Option (List Char)} {p p' : Reader (List Char)} {c : Cursor}
    (h : Meets o (p c)) (h' : Meets o' (p' c)) : Meets (o <|> o') (orElse p p' c) := by
  unfold orElse
  split
  · next hmiss =>
    rw [hmiss] at h
    obtain rfl : o = none := h
    exact h'
  · cases hp : p c with
    | done back next =>
      rw [hp] at h
      obtain rfl : o = some back := h
      rfl
    | miss i e => simp_all
    | stop x =>
      rw [hp] at h
      exact h.elim

/-- A string is made of the characters before its closing quote. -/
theorem closeString_eq (q : Char) (all : List Char) : closeString q all =
    match closedChars q all.reverse with
    | some back => pure (.chars (String.ofList back.reverse))
    | none => expecting "Not in quotes" := by
  have hmeets :=
    meets_orElse (meets_commentedQuote q 0 all.reverse) (meets_closingQuote q 0 all.reverse)
  change Meets (closedChars q all.reverse) _ at hmeets
  rw [closeString, readFront, Cursor.start, String.toList_ofList]
  cases hread : orElse (commentedQuote q) (closingQuote q) ⟨0, all.reverse⟩ with
  | done back next =>
    rw [hread] at hmeets
    rw [show closedChars q all.reverse = some back from hmeets]
  | miss i e =>
    rw [hread] at hmeets
    rw [show closedChars q all.reverse = none from hmeets]
  | stop x =>
    rw [hread] at hmeets
    exact hmeets.elim

end Assembler.Grammar
