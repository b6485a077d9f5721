import Assembler.Fault

/-! # Readers

A reader takes characters from the front of a text and yields a value, or misses: it names what it
expected and the place where that was missing.  Places are counted in characters from the start of
the text, so a choice can tell a reader that missed at once from one that had already got on.  A
fault passes through every reader. -/

namespace Assembler
set_option autoImplicit false

/-- A place in a text: how many characters lie before it, and those that follow. -/
structure Cursor where
  index : Nat
  rest : List Char
  deriving DecidableEq, Repr

namespace Cursor

def start (s : String) : Cursor := ⟨0, s.toList⟩

/-- The place after the next `n` characters. -/
def advance (c : Cursor) (n : Nat) : Cursor := ⟨c.index + n, c.rest.drop n⟩

end Cursor

/-- What reading gives. -/
inductive Outcome (α : Type) where
  | done (value : α) (next : Cursor)
  | miss (index : Nat) (expected : String)
  | stop (fault : Fault)
  deriving Repr

def Reader (α : Type) : Type := Cursor → Outcome α

namespace Reader

variable {α β : Type}

def value (a : α) : Reader α := fun c => .done a c

/-- Reads on with what the value asks for. -/
def andThen (p : Reader α) (f : α → Reader β) : Reader β := fun c =>
  match p c with
  | .done a next => f a next
  | .miss i e => .miss i e
  | .stop x => .stop x

instance : Monad Reader where
  pure := value
  bind := andThen

def expecting (what : String) : Reader α := fun c => .miss c.index what

def fault (x : Fault) : Reader α := fun _ => .stop x

/-- A miss at the very start is told under the name of the whole. -/
def named (name : String) (p : Reader α) : Reader α := fun c =>
  match p c with
  | .miss i e => if i = c.index then .miss i name else .miss i e
  | other => other

/-- Tries the second reader from the start if the first misses anywhere. -/
def orElse (p q : Reader α) : Reader α := fun c =>
  match p c with
  | .miss _ _ => q c
  | other => other

/-- Tries the second reader if the first misses at the very start. -/
def orAtStart (p q : Reader α) : Reader α := fun c =>
  match p c with
  | .miss i e => if i = c.index then q c else .miss i e
  | other => other

/-- Reads one thing and then its end. -/
def endingWith (p : Reader α) (q : Reader β) : Reader α := fun c =>
  match p c with
  | .done a next =>
    match q next with
    | .done _ last => .done a last
    | .miss i e => .miss i ("ends with " ++ e)
    | .stop x => .stop x
  | other => other

def optional (p : Reader α) : Reader (Option α) := fun c =>
  match p c with
  | .done a next => .done (some a) next
  | .miss _ _ => .done none c
  | .stop x => .stop x

def ahead (p : Reader α) : Reader α := fun c =>
  match p c with
  | .done a _ => .done a c
  | .miss _ e => .miss c.index e
  | .stop x => .stop x

/-- Reads with `p` unless `x` could be read here. -/
def barring (p : Reader α) (x : Reader String) : Reader α := fun c =>
  match x c with
  | .done a _ => .miss c.index ("something other than " ++ a)
  | .miss _ _ => p c
  | .stop f => .stop f

/-! ## Characters -/

def charWhere (p : Char → Bool) (what : String) : Reader Char := fun c =>
  match c.rest with
  | [] => .miss c.index what
  | x :: xs => if p x then .done x ⟨c.index + 1, xs⟩ else .miss c.index what

def oneOf (cs : List Char) : Reader Char :=
  charWhere (fun x => cs.contains x) ("one of " ++ String.ofList cs)

/-- The number of characters two lists share at the front. -/
def sharedFront : List Char → List Char → Nat
  | a :: as, b :: bs => if a = b then sharedFront as bs + 1 else 0
  | _, _ => 0

/-- The given text; a miss is at the first character that differs. -/
def literal (s : String) : Reader Unit := fun c =>
  let n := sharedFront s.toList c.rest
  if n = s.toList.length then .done () (c.advance n) else .miss (c.index + n) s

/-- The longest run of characters of a class, which may be empty. -/
def run (p : Char → Bool) : Reader (List Char) := fun c =>
  let taken := c.rest.takeWhile p
  .done taken ⟨c.index + taken.length, c.rest.dropWhile p⟩

/-- The longest run of characters of a class, at least one. -/
def run1 (p : Char → Bool) (what : String) : Reader (List Char) := fun c =>
  match c.rest with
  | [] => .miss c.index what
  | x :: _ => if p x then run p c else .miss c.index what

/-- A character of one class and the longest run of another. -/
def headAndRun (first rest : Char → Bool) (what : String) : Reader (List Char) := fun c =>
  match c.rest with
  | [] => .miss c.index what
  | x :: xs =>
    if first x then
      let taken := xs.takeWhile rest
      .done (x :: taken) ⟨c.index + 1 + taken.length, xs.dropWhile rest⟩
    else .miss c.index what

def ending : Reader Unit := fun c =>
  match c.rest with
  | [] => .done () c
  | _ :: _ => .miss c.index "EOF"

/-! ## Sequences -/

/-- At most `fuel` further things, each after a separator; a separator without a thing is left
unread. -/
def furtherItems (p : Reader α) (sep : Reader β) : Nat → List α → Reader (List α)
  | 0, got => value got
  | fuel + 1, got => fun c =>
    match sep c with
    | .stop x => .stop x
    | .miss _ _ => .done got c
    | .done _ next =>
      match p next with
      | .stop x => .stop x
      | .miss _ _ => .done got c
      | .done a last => furtherItems p sep fuel (got ++ [a]) last

/-- Things between separators, possibly none.  A separator takes at least one character, so the
characters left bound the number of things. -/
def separated (p : Reader α) (sep : Reader β) : Reader (List α) := fun c =>
  match p c with
  | .stop x => .stop x
  | .miss _ _ => .done [] c
  | .done a next => furtherItems p sep next.rest.length [a] next

/-! ## Whole texts -/

/-- The line and column of a place in a text, both from zero. -/
def lineColumn (cs : List Char) (index : Nat) : Nat × Nat :=
  let front := cs.take index
  (front.count '\n', (front.reverse.takeWhile (· ≠ '\n')).length)

/-- Reads the front of a text and gives what is left. -/
def readFront (p : Reader α) (s : String) : Except Fault (α × List Char) :=
  match p (.start s) with
  | .done a next => .ok (a, next.rest)
  | .miss i e =>
    let place := lineColumn s.toList i
    .error (.unreadable ⟨e, place.1, place.2⟩)
  | .stop x => .error x

end Reader

end Assembler
