/-! # Numbers as digits

Numbers are written in a base with a least width, zeros filling up from the left; the sign of a
negative number counts as one place of the width.  Reading goes digit by digit, most significant
first. -/

namespace Assembler.Text
set_option autoImplicit false

/-- Whether the hexadecimal digits above nine are written small or capital. -/
inductive LetterCase where
  | lower
  | upper
  deriving DecidableEq, Repr

/-- The digits of a natural number, most significant first. -/
def digits (c : LetterCase) (base n : Nat) : List Char :=
  match c with
  | .lower => Nat.toDigits base n
  | .upper => (Nat.toDigits base n).map Char.toUpper

/-- Fills up with zeros from the left to a least width. -/
def padLeft (width : Nat) (cs : List Char) : List Char :=
  List.replicate (width - cs.length) '0' ++ cs

/-- A whole number in a base with a least width. -/
def formatInt (c : LetterCase) (base width : Nat) (v : Int) : String :=
  String.ofList <|
    if v < 0 then '-' :: padLeft (width - 1) (digits c base v.natAbs)
    else padLeft width (digits c base v.natAbs)

def hex (c : LetterCase) (width : Nat) (v : Int) : String := formatInt c 16 width v

def decimal (v : Int) : String := formatInt .lower 10 0 v

/-- The most digits a decimal number may have, read or written. -/
def decimalLimit : Nat := 4300

/-- Whether a natural number has at most `k` decimal digits. -/
def fitsDigits : Nat → Nat → Bool
  | 0, n => n == 0
  | k + 1, n => n == 0 || fitsDigits k (n / 10)

/-- The numbers of at most `k` digits are those below the power of ten. -/
theorem fitsDigits_iff (k n : Nat) : fitsDigits k n = true ↔ n < Nat.pow 10 k := by
  induction k generalizing n with
  | zero => simp [fitsDigits, Nat.pow]
  | succ k ih =>
    rw [fitsDigits, Bool.or_eq_true, ih, beq_iff_eq, Nat.div_lt_iff_lt_mul (by decide), Nat.pow]
    have h : 0 < Nat.pow 10 k * 10 := Nat.mul_pos (Nat.pow_pos (by decide)) (by decide)
    exact or_iff_right_of_imp fun hn => hn ▸ h

/-- Whether a number has a decimal form within the limit; the sign does not count. -/
def hasDecimal (v : Int) : Bool := fitsDigits decimalLimit v.natAbs

/-- Six capital hexadecimal places, the width of an address. -/
def address (v : Int) : String := hex .upper 6 v

/-- Hexadecimal with the mark `0x` after the sign. -/
def markedHex (v : Int) : String :=
  (if v < 0 then "-0x" else "0x") ++ String.ofList (digits .lower 16 v.natAbs)

/-! ## Reading -/

def isDecimal (c : Char) : Bool := '0' ≤ c && c ≤ '9'

def isOctal (c : Char) : Bool := '0' ≤ c && c ≤ '7'

def isBinary (c : Char) : Bool := '0' ≤ c && c ≤ '1'

/-- A hexadecimal digit of either case. -/
def isHexadecimal (c : Char) : Bool :=
  isDecimal c || ('A' ≤ c && c ≤ 'F') || ('a' ≤ c && c ≤ 'f')

/-- What one digit of any base up to sixteen is worth. -/
def digitValue (c : Char) : Nat :=
  if isDecimal c then c.toNat - '0'.toNat
  else if 'a' ≤ c && c ≤ 'f' then c.toNat - 'a'.toNat + 10
  else c.toNat - 'A'.toNat + 10

def valueOf (base : Nat) (cs : List Char) : Nat :=
  cs.foldl (fun n c => n * base + digitValue c) 0

end Assembler.Text
