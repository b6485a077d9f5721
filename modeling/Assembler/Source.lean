import Assembler.Grammar

/-! # Source texts

A source text is read line by line.  Lines without a command leave nothing; lines that cannot be
read are reported with their number, counted from one. -/

namespace Assembler
set_option autoImplicit false

/-- A line that cannot be read. -/
structure BadLine where
  number : Nat
  text : List Char
  place : Unreadable
  deriving DecidableEq, Repr

/-- The wording for a line that cannot be read. -/
def BadLine.message (b : BadLine) : String :=
  "Line " ++ Text.decimal b.number ++ ": '" ++ String.ofList (Text.stripChars b.text) ++ " --- " ++
    b.place.message ++ "'"

/-- What a source text holds. -/
structure Source where
  lines : List Line
  bad : List BadLine
  deriving DecidableEq, Repr

namespace Source

/-- Adds what one line gave in front. -/
def withLine (read : Option Line) (s : Source) : Source :=
  match read with
  | some l => { s with lines := l :: s.lines }
  | none => s

/-- Reads lines, the first of which has the given number. -/
def ofLines (d : Dialect) : Nat → List (List Char) → Except Fault Source
  | _, [] => .ok ⟨[], []⟩
  | n, cs :: rest =>
    match Reader.readFront (Grammar.line d) (String.ofList cs) with
    | .ok (read, _) => (ofLines d (n + 1) rest).map (withLine read)
    | .error (.unreadable place) =>
      (ofLines d (n + 1) rest).map fun s => { s with bad := ⟨n, cs, place⟩ :: s.bad }
    | .error x => .error x

def parse (d : Dialect) (text : String) : Except Fault Source :=
  ofLines d 1 (Text.splitLines text.toList)

/-- The messages for the lines that cannot be read. -/
def messages (s : Source) : List String := s.bad.map (·.message)

end Source

end Assembler
