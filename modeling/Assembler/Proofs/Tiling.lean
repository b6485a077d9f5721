import Assembler.Proofs.FlatObject

/-! # Records without gap or overlap

The text records of a program lie one behind another (`Tiles`), because the lines they come from are
placed that way. -/

namespace Assembler
set_option autoImplicit false

/-- Where the bytes of a record lie and how many they are; only text records have bytes. -/
def ObjectRecord.place? : ObjectRecord → Option (Int × Int)
  | .code a n _ _ => some (a, n)
  | .data a n _ => some (a, n)
  | .space a n => some (a, n)
  | _ => none

/-- Text records that fill the addresses from `a` up to `b`, one behind another. -/
def Tiles : Int → Int → List ObjectRecord → Prop
  | a, b, [] => a = b
  | a, b, o :: os => ∃ n, 0 ≤ n ∧ o.place? = some (a, n) ∧ Tiles (a + n) b os

section

variable {layout : Layout} {table : OpTable} {use : NameUse} {sec : Option String} {p : Row × Int}

theorem place?_recordOf (hfit : p.1.line.Fits layout table use p.1.address) (field : String) :
    (recordOf layout table p field).place? = some (p.1.address, p.2) := by
  unfold recordOf
  rcases hfit.cases with ⟨kind, al, hkind, -⟩ | ⟨op, hop, -⟩
  · simp only [hkind]
    unfold storageRecord
    split <;> rfl
  · simp only [hop]
    rfl

/-- The records of placed lines, without those of lines that take no space and have no text
record. -/
theorem tiles_placed {a : Int} {ls : List Line} {f : Row × Int → ObjectRecord}
    (h : ∀ p ∈ placed layout table sec a ls, 0 ≤ p.2 ∧ (f p).place? = some (p.1.address, p.2) ∨
      p.2 = 0 ∧ (f p).place? = none) :
    Tiles a (a + extentOf layout table ls)
      (((placed layout table sec a ls).map f).filter (·.place?.isSome)) := by
  induction ls generalizing a with
  | nil => simp [placed, extentOf, Tiles]
  | cons l ls ih =>
    have hend :
        a + extentOf layout table (l :: ls) = a + l.extent layout table +
          extentOf layout table ls := by
      rw [extentOf, Int.add_assoc]
    have ih := ih fun p hp => h p (List.mem_cons_of_mem _ hp)
    rw [placed, List.map_cons, hend]
    rcases h _ List.mem_cons_self with ⟨hn, hplace⟩ | ⟨hn, hplace⟩
    · rw [List.filter_cons_of_pos (by rw [hplace]; rfl)]
      exact ⟨l.extent layout table, hn, hplace, ih⟩
    · have hzero : a + l.extent layout table = a := by
        have hn : l.extent layout table = 0 := hn
        omega
      rw [List.filter_cons_of_neg (by rw [hplace]; simp)]
      rw [hzero] at ih ⊢
      exact ih

end

end Assembler
