import Assembler.Text.Hidden
import Assembler.Text.Radix

/-! # Quoted text

A text shown inside quotes: single quotes, unless the text holds a single quote and no double one.
Control characters and characters without a visible form are written by their code. -/

namespace Assembler.Text
set_option autoImplicit false

def singleQuote : Char := Char.ofNat 0x27

def doubleQuote : Char := Char.ofNat 0x22

/-- The code of a character in the shortest of the three forms. -/
def codeEscape (c : Char) : List Char :=
  let n := c.toNat
  if n < 0x100 then '\\' :: 'x' :: padLeft 2 (digits .lower 16 n)
  else if n < 0x10000 then '\\' :: 'u' :: padLeft 4 (digits .lower 16 n)
  else '\\' :: 'U' :: padLeft 8 (digits .lower 16 n)

/-- One character inside the quotes. -/
def quoteChar (quote c : Char) : List Char :=
  if c = quote ∨ c = '\\' then ['\\', c]
  else if c = '\n' then ['\\', 'n']
  else if c = '\r' then ['\\', 'r']
  else if c = '\t' then ['\\', 't']
  else if isHidden c then codeEscape c
  else [c]

def quoteFor (cs : List Char) : Char :=
  if cs.contains singleQuote && !cs.contains doubleQuote then doubleQuote else singleQuote

def quoted (s : String) : String :=
  let q := quoteFor s.toList
  String.ofList (q :: (s.toList.flatMap (quoteChar q) ++ [q]))

end Assembler.Text
