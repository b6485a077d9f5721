import Mathlib
import Assembler.ObjectRecord
import Assembler.Symbols

/-! # When object records and symbols agree

The dialects print the same record in different styles.  Two records agree if they are of the same
kind and have the same label or name, address and size, and if their digits differ at most in letter
case. -/

namespace Assembler
set_option autoImplicit false

/-- Digits that differ at most in letter case. -/
def SameDigits (s t : String) : Prop := s.toList.map Char.toLower = t.toList.map Char.toLower

instance (s t : String) : Decidable (SameDigits s t) := inferInstanceAs (Decidable (_ = _))

namespace SameDigits

theorem refl (s : String) : SameDigits s s := rfl

theorem symm {s t : String} (h : SameDigits s t) : SameDigits t s := Eq.symm h

theorem append {s s' t t' : String} (h : SameDigits s s') (h' : SameDigits t t') :
    SameDigits (s ++ t) (s' ++ t') := by
  unfold SameDigits at *
  simp [h, h']

/-- A number has the same digits in both cases of letters. -/
theorem hex (c c' : Text.LetterCase) (width : Nat) (v : Int) :
    SameDigits (Text.hex c width v) (Text.hex c' width v) := by
  have hdigits :
      ∀ c n, (Text.digits c 16 n).map Char.toLower = (Nat.toDigits 16 n).map Char.toLower := by
    intro c n
    cases c <;> simp [Text.digits, Function.comp_def]
  have hlength : ∀ c n, (Text.digits c 16 n).length = (Nat.toDigits 16 n).length := by
    intro c n
    cases c <;> simp [Text.digits]
  unfold SameDigits Text.hex Text.formatInt Text.padLeft
  split <;> simp [hdigits, hlength]

end SameDigits

/-- What a printed record says. -/
structure RecordFields where
  /-- The letter in front. -/
  kind : Char
  /-- The label of a program or section, or the name of an export, import or modification. -/
  name : Option String
  address : Option Int
  size : Option Int
  /-- The digits of the object code or of an exported address. -/
  digits : String
  deriving DecidableEq, Repr

/-- What a record says when it is printed in a style; an empty name is not seen. -/
def ObjectRecord.fields (s : RecordStyle) : ObjectRecord → RecordFields
  | .header label a n => ⟨'H', label, some a, n, ""⟩
  | .definition name ds => ⟨'D', some name, none, none, ds⟩
  | .reference name => ⟨'R', some name, none, none, ""⟩
  | .code a n b f => ⟨'T', none, some a, some n, Text.hex s.byteCase 2 b ++ f⟩
  | .data a n ds => ⟨'T', none, some a, some n, ds⟩
  | .space a n => ⟨'T', none, some a, some n, ""⟩
  | .modification a name => ⟨'M', name.filter (· ≠ ""), some a, none, ""⟩
  | .finish a => ⟨'E', none, some a, none, ""⟩

/-- Records that say the same up to letter case in their digits. -/
structure RecordFields.Agree (r r' : RecordFields) : Prop where
  kind : r.kind = r'.kind
  name : r.name = r'.name
  address : r.address = r'.address
  size : r.size = r'.size
  digits : SameDigits r.digits r'.digits

/-- A record agrees with itself in another style. -/
theorem ObjectRecord.agree_self (s s' : RecordStyle) (r : ObjectRecord) :
    (r.fields s).Agree (r.fields s') := by
  cases r with
  | code a n b f => exact ⟨rfl, rfl, rfl, rfl, (SameDigits.hex _ _ 2 b).append (.refl f)⟩
  | _ => exact ⟨rfl, rfl, rfl, rfl, rfl⟩

def Symbols.Same : Symbols → Symbols → Prop
  | .flat m, .flat m' => ∀ x, m.get? x = m'.get? x
  | .sectioned m, .sectioned m' =>
    ∀ sec x, (m.get? sec).bind (·.get? x) = (m'.get? sec).bind (·.get? x)
  | _, _ => False

end Assembler
