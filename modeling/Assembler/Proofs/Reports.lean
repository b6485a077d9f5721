import Mathlib.Algebra.Group.Nat.Defs
import Assembler.OpTable
import Assembler.Statement

/-! # When nothing is reported

A run goes on after a problem, so that what it leaves behind says whether it went well: nothing was
reported.  Here is what that means for each rule on addresses, storage and mnemonics. -/

namespace Assembler
set_option autoImplicit false

theorem map_eq_ok_iff {ε α β : Type} (f : α → β) (x : Except ε α) (b : β) :
    x.map f = .ok b ↔ ∃ a, x = .ok a ∧ f a = b := by
  cases x <;> simp [Except.map]

@[simp] theorem map_ok {ε α β : Type} (f : α → β) (a : α) :
    (Except.ok a : Except ε α).map f = .ok (f a) := rfl

@[simp] theorem map_error {ε α β : Type} (f : α → β) (x : ε) :
    (Except.error x : Except ε α).map f = .error x := rfl

/-- Problems with a wording are handed on as they are. -/
theorem Problem.eq_of_worded {ps qs : List Problem} (h : Problem.worded ps = .ok qs) : qs = ps := by
  unfold Problem.worded at h
  split at h
  · cases h; rfl
  · cases h

@[simp] theorem Problem.worded_nil : Problem.worded [] = .ok [] := rfl

@[simp] theorem Site.report_eq_nil_iff (site : Site) (ps : List Problem) :
    site.report ps = [] ↔ ps = [] := by
  simp [Site.report]

@[simp] theorem Site.report_nil (site : Site) : site.report [] = [] := rfl

/-! ## Addresses -/

def InMemory (a : Int) : Prop := 0 ≤ a ∧ a ≤ lastAddress

instance (a : Int) : Decidable (InMemory a) := inferInstanceAs (Decidable (_ ∧ _))

@[simp] theorem rangeProblems_eq_nil_iff (a : Int) (role : AddressRole) :
    rangeProblems a role = [] ↔ InMemory a := by
  unfold rangeProblems InMemory
  split <;> simp_all

theorem hasDecimal_iff {v : Int} :
    Text.hasDecimal v = true ↔ v.natAbs < 10 ^ Text.decimalLimit := by
  have hfits : ∀ k n, Text.fitsDigits k n = true ↔ n < 10 ^ k := Text.fitsDigits_iff
  exact hfits _ _

/-- Numbers of the size of an address have decimal forms. -/
theorem hasDecimal_of_natAbs_lt {v : Int} (h : v.natAbs < 10000000000) :
    Text.hasDecimal v = true := by
  have hpow : ∀ k, 10 ≤ k → 10000000000 ≤ 10 ^ k :=
    fun _ hk => Nat.pow_le_pow_right (n := 10) (by decide) hk
  exact hasDecimal_iff.2 (Nat.lt_of_lt_of_le h (hpow Text.decimalLimit (by decide)))

theorem InMemory.hasDecimal {a : Int} (h : InMemory a) : Text.hasDecimal a = true := by
  have h0 := h.1
  have h1 := h.2
  unfold lastAddress at h1
  exact hasDecimal_of_natAbs_lt (by omega)

/-! ## Mnemonics -/

/-- The mnemonic of a storage directive. -/
def Storage.mnemonic : Storage → String
  | .words => "WORD"
  | .reservedWords => "RESW"
  | .bytes => "BYTE"
  | .reservedBytes => "RESB"

/-- The directives of flat programs. -/
def flatDirectives : List String := ["START", "END", "WORD", "RESW", "BYTE", "RESB"]

/-- The directives of sectioned programs. -/
def sectionedDirectives : List String := flatDirectives ++ ["CSECT", "EXTDEF", "EXTREF"]

namespace Statement

/-- What a mnemonic has to be to ask for a statement. -/
def Stands (layout : Layout) (table : OpTable) (m : String) : Statement → Prop
  | .start => m = "START"
  | .finish => m = "END"
  | .storage kind => m = kind.mnemonic
  | .newSection => m = "CSECT" ∧ layout = .sectioned
  | .exportName => m = "EXTDEF" ∧ layout = .sectioned
  | .importName => m = "EXTREF" ∧ layout = .sectioned
  | .command op =>
    table.get? m = some op ∧ m ∉ flatDirectives ∧ (layout = .sectioned → m ∉ sectionedDirectives)
  | .unknown => True

theorem stands_ofTable {layout : Layout} {table : OpTable} {m : String} (hf : m ∉ flatDirectives)
    (hs : layout = .sectioned → m ∉ sectionedDirectives) :
    Stands layout table m (ofTable table m) := by
  unfold ofTable
  split
  · next op h => exact ⟨h, hf, hs⟩
  · trivial

theorem stands_sectionOnly {layout : Layout} {table : OpTable} {m : String} {s : Statement}
    (hf : m ∉ flatDirectives) (hs : layout = .sectioned → Stands layout table m s) :
    Stands layout table m (sectionOnly layout s (ofTable table m)) := by
  cases layout with
  | absolute => exact stands_ofTable hf (by simp)
  | relocatable => exact stands_ofTable hf (by simp)
  | sectioned => exact hs rfl

theorem stands_ofMnemonic (layout : Layout) (table : OpTable) (m : String) :
    Stands layout table m (ofMnemonic layout table m) := by
  unfold ofMnemonic
  split
  · assumption
  split
  · assumption
  split
  · assumption
  split
  · assumption
  split
  · assumption
  split
  · assumption
  have hf : m ∉ flatDirectives := by simp_all [flatDirectives]
  split
  · next h => exact stands_sectionOnly hf fun hl => ⟨h, hl⟩
  split
  · next h => exact stands_sectionOnly hf fun hl => ⟨h, hl⟩
  split
  · next h => exact stands_sectionOnly hf fun hl => ⟨h, hl⟩
  exact stands_ofTable hf fun _ => by simp_all [sectionedDirectives]

theorem stands_of_eq {layout : Layout} {table : OpTable} {m : String} {s : Statement}
    (h : ofMnemonic layout table m = s) : Stands layout table m s :=
  h ▸ stands_ofMnemonic layout table m

theorem ofMnemonic_eq_start_iff (layout : Layout) (table : OpTable) (m : String) :
    ofMnemonic layout table m = .start ↔ m = "START" := by
  refine ⟨fun h => stands_of_eq h, ?_⟩
  rintro rfl
  rfl

theorem ofMnemonic_eq_finish_iff (layout : Layout) (table : OpTable) (m : String) :
    ofMnemonic layout table m = .finish ↔ m = "END" := by
  refine ⟨fun h => stands_of_eq h, ?_⟩
  rintro rfl
  rfl

theorem ofMnemonic_eq_newSection_iff (table : OpTable) (m : String) :
    ofMnemonic .sectioned table m = .newSection ↔ m = "CSECT" := by
  refine ⟨fun h => (stands_of_eq h).1, ?_⟩
  rintro rfl
  rfl

theorem ofMnemonic_eq_exportName_iff (table : OpTable) (m : String) :
    ofMnemonic .sectioned table m = .exportName ↔ m = "EXTDEF" := by
  refine ⟨fun h => (stands_of_eq h).1, ?_⟩
  rintro rfl
  rfl

theorem ofMnemonic_eq_importName_iff (table : OpTable) (m : String) :
    ofMnemonic .sectioned table m = .importName ↔ m = "EXTREF" := by
  refine ⟨fun h => (stands_of_eq h).1, ?_⟩
  rintro rfl
  rfl

end Statement

end Assembler
