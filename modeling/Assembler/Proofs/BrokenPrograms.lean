import Assembler.Assembly
import Assembler.Proofs.BrokenRelocatable
import Assembler.Proofs.BrokenSections
import Assembler.Proofs.ParsedStrings

/-! # Programs that break off

Problems of a program are reported and one pass goes on, but it does not come through every program.
It breaks off, and shows nothing more, upon a line that it cannot take in behind the lines before
it, and upon numbers that are too large to be told in decimal; upon nothing else
(`broken_off_iff`). -/

namespace Assembler.OnePass
open Assembler Relocatable
set_option autoImplicit false

variable {layout : Layout} {table : OpTable} {program : List Line}

/-- A line halts the pass of a layout behind other lines. -/
def Halts (layout : Layout) (table : OpTable) : List Line → Line → Prop :=
  match layout with
  | .absolute => Absolute.Halts table
  | .relocatable => Relocatable.Halts table
  | .sectioned => Sectioned.Halts table

/-- One of the lines up to the end directive halts the pass. -/
def BreaksOff (layout : Layout) (table : OpTable) (program : List Line) : Prop :=
  ∃ pre l post, upToEnd program = pre ++ l :: post ∧ Halts layout table pre l

theorem fault_iff_breaksOff_or (layout : Layout) (table : OpTable) (use : NameUse)
    (h : ∀ l ∈ program, Readable l) :
    (traceProgram layout table use program).fault ≠ none ↔ BreaksOff layout table program ∨
      (traceProgram layout table use program).fault = some .noDecimal ∧
        ∃ pre l post, upToEnd program = pre ++ l :: post ∧ Overweight layout table pre l := by
  cases layout with
  | absolute => exact (Absolute.breaking table use).fault_iff (Absolute.kept_start table) 1 h
  | relocatable =>
    exact (Relocatable.breaking table use).fault_iff (Relocatable.kept_start table) 1 h
  | sectioned => exact (Sectioned.breaking table use).fault_iff (Sectioned.kept_start table) 1 h

theorem le_bulk_of_overweight {pre post : List Line} {l : Line} (hcut : program = pre ++ l :: post)
    (h : Overweight layout table pre l) : vast ≤ bulk layout table program := by
  rw [hcut, List.append_cons, bulk_append]
  exact Nat.le_add_right_of_le h

theorem readable_of_parse {d : Dialect} {text : String} {source : Source}
    (hparse : Source.parse d text = .ok source)
    (hchars : ∀ l ∈ source.lines, .chars "" ∉ l.operands) : ∀ l ∈ source.lines, Readable l := by
  intro l hl
  refine ⟨fun o ho => ?_, Source.label_of_parse hparse l hl⟩
  refine (Operand.legible_iff (Source.wellWritten_of_parse hparse l hl o ho)).2 ?_
  rintro rfl
  exact hchars l hl ho

/-- A program without empty strings breaks off if and only if one of its lines halts the pass, as
long as its numbers do not add up to one that is too large to be told in decimal.  Where they do,
such a line still breaks it off, and the only other fault is that a number could not be told. -/
theorem broken_off_iff {text : String} {source : Source} (layout : Layout)
    (hparse : Source.parse ⟨layout, .onePass⟩ text = .ok source)
    (hchars : ∀ l ∈ source.lines, .chars "" ∉ l.operands) (table : OpTable) (i : Int) :
    (bulk layout table (upToEnd source.lines) < vast →
      ((traceProgram layout table (.ofIndex i) source.lines).fault ≠ none ↔
        BreaksOff layout table source.lines)) ∧
    (BreaksOff layout table source.lines →
      (traceProgram layout table (.ofIndex i) source.lines).fault ≠ none) ∧
    ∀ x, (traceProgram layout table (.ofIndex i) source.lines).fault = some x → x ≠ .noDecimal →
      BreaksOff layout table source.lines := by
  have hiff := fault_iff_breaksOff_or layout table (.ofIndex i) (readable_of_parse hparse hchars)
  have hbreaks := fun h => hiff.2 (.inl h)
  refine ⟨fun hlight => ⟨fun hfault => ?_, hbreaks⟩, hbreaks, fun x hx hne => ?_⟩
  · refine (hiff.1 hfault).resolve_right ?_
    rintro ⟨-, pre, l, post, hcut, hover⟩
    exact absurd (le_bulk_of_overweight hcut hover) (Nat.not_le.2 hlight)
  · refine (hiff.1 (by simp [hx])).resolve_right ?_
    rintro ⟨hmute, -⟩
    exact hne (Option.some.inj (hx.symm.trans hmute))

/-- A command with an address and one without operands. -/
def jumpTable : OpTable := .ofTriples [("JMP", 1, 4), ("NOP", 2, 1)]

/-- The name waits where there is no record. -/
def labelBehindNothing : List Line := [⟨none, ⟨"FOO", [.direct "X"]⟩⟩, ⟨some "X", ⟨"NOP", []⟩⟩]

def labelBehindHeader : List Line :=
  [⟨some "P", ⟨"START", []⟩⟩, ⟨none, ⟨"FOO", [.direct "X"]⟩⟩, ⟨some "X", ⟨"NOP", []⟩⟩,
    ⟨none, ⟨"END", []⟩⟩]

/-- The number is looked up as a name. -/
def numberBesideName : List Line :=
  [⟨some "P", ⟨"START", []⟩⟩, ⟨none, ⟨"JMP", [.direct "X", .number 5]⟩⟩, ⟨some "X", ⟨"END", []⟩⟩]

/-- Programs with mistakes in them that no layout comes through. -/
theorem mistaken_programs_break_off :
    (Source.parse ⟨.absolute, .onePass⟩ " FOO X\nX: NOP\n" = .ok ⟨labelBehindNothing, []⟩ ∧
      BreaksOff .absolute jumpTable labelBehindNothing) ∧
    (Source.parse ⟨.relocatable, .onePass⟩ "P: START\n FOO X\nX: NOP\n END\n" =
      .ok ⟨labelBehindHeader, []⟩ ∧
      BreaksOff .relocatable jumpTable labelBehindHeader) ∧
    Source.parse ⟨.sectioned, .onePass⟩ "P: START\n JMP X, 5\nX: END\n" =
      .ok ⟨numberBesideName, []⟩ ∧
      BreaksOff .sectioned jumpTable numberBesideName := by
  have hnothing :
      Source.parse ⟨.absolute, .onePass⟩ " FOO X\nX: NOP\n" = .ok ⟨labelBehindNothing, []⟩ := by
        decide +kernel
  have hheader :
      Source.parse ⟨.relocatable, .onePass⟩ "P: START\n FOO X\nX: NOP\n END\n" =
        .ok ⟨labelBehindHeader, []⟩ := by
    decide +kernel
  have hnumber :
      Source.parse ⟨.sectioned, .onePass⟩ "P: START\n JMP X, 5\nX: END\n" =
        .ok ⟨numberBesideName, []⟩ := by
    decide +kernel
  refine ⟨⟨hnothing, ?_⟩, ⟨hheader, ?_⟩, hnumber, ?_⟩
  · have hiff := (broken_off_iff .absolute hnothing (by decide) jumpTable 0).1 (by decide +kernel)
    exact hiff.1 (by decide +kernel)
  · have hiff := (broken_off_iff .relocatable hheader (by decide) jumpTable 1).1 (by decide +kernel)
    exact hiff.1 (by decide +kernel)
  · have hiff := (broken_off_iff .sectioned hnumber (by decide) jumpTable 2).1 (by decide +kernel)
    exact hiff.1 (by decide +kernel)

end Assembler.OnePass
