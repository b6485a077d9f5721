import Assembler.Assembly
import Assembler.Proofs.AbsolutePass
import Assembler.Proofs.Digits
import Assembler.Proofs.ParsedStrings
import Assembler.Proofs.RelocatablePass

/-! # Reserved space and the data put there

The space of a byte or word directive is counted from its operand in one place, its digits are
written in another.  A first pass that finds nothing wrong with such a line moves its counter by the
space (`Advances`).  The digits are two for each byte of it but for two kinds of operand: characters
that do not fit a byte overrun the space of a byte directive, and a hexadecimal string of more than
two digits does not fill the space of a word directive (`data_fill_space_iff`). -/

namespace Assembler
set_option autoImplicit false

/-! ## How many digits there are -/

theorem length_padToMultiple_two (ds : List Char) :
    (padToMultiple 2 ds).length = 2 * ((ds.length + 1) / 2) := by
  rw [padToMultiple, List.length_append, List.length_replicate]
  omega

theorem length_padToMultiple_six (ds : List Char) :
    (padToMultiple 6 ds).length = 6 * ((ds.length + 5) / 6) := by
  rw [padToMultiple, List.length_append, List.length_replicate]
  omega

theorem length_byteChars (cs : List Char) :
    2 * cs.length ≤ (cs.flatMap fun c => Text.padLeft 2 (Text.digits .lower 16 c.toNat)).length ∧
      (2 * cs.length < (cs.flatMap fun c => Text.padLeft 2 (Text.digits .lower 16 c.toNat)).length ↔
        ∃ c ∈ cs, 0xFF < c.toNat) := by
  induction cs with
  | nil => simp
  | cons c cs ih =>
    obtain ⟨hle, hiff⟩ := ih
    have hplaces := Text.length_digits_le_iff .lower c.toNat (k := 2) (by decide)
    rw [List.flatMap_cons, List.length_append, Text.length_padLeft, List.length_cons]
    refine ⟨by omega, ?_⟩
    rw [List.exists_mem_cons_iff, ← hiff]
    omega

theorem toNat_char_lt (c : Char) : c.toNat < 16 ^ 6 := by
  have hvalid : c.toNat < 0xd800 ∨ (0xdfff < c.toNat ∧ c.toNat < 0x110000) := c.valid
  omega

theorem length_wordChars (cs : List Char) :
    (cs.flatMap fun c => Text.padLeft 6 (Text.digits .upper 16 c.toNat)).length =
      6 * cs.length := by
  induction cs with
  | nil => rfl
  | cons c cs ih =>
    have hplaces :=
      (Text.length_digits_le_iff .upper c.toNat (k := 6) (by decide)).2 (toNat_char_lt c)
    rw [List.flatMap_cons, List.length_append, Text.length_padLeft, List.length_cons, ih]
    omega

namespace Storage

/-- A byte directive with a character that takes more than a byte. -/
def Overruns (kind : Storage) (ops : List Operand) : Prop :=
  kind = .bytes ∧ ∃ s, ops = [.chars s] ∧ ∃ c ∈ s.toList, 0xFF < c.toNat

/-- A word directive with a hexadecimal string of more than two digits. -/
def FallsShort (kind : Storage) (ops : List Operand) : Prop :=
  kind = .words ∧ ∃ s, ops = [.hex s] ∧ 2 < s.toList.length

/-- What the digits of a directive have to do with its space. -/
def Compared (kind : Storage) (ops : List Operand) (size : Int) (digits : String) : Prop :=
  (2 * size < digits.length ↔ kind.Overruns ops) ∧
    ((digits.length : Int) < 2 * size ↔ kind.FallsShort ops)

theorem compared_of_eq {kind : Storage} {op : Operand} {size : Int} {digits : String}
    (h : (digits.length : Int) = 2 * size) (hchars : kind = .bytes → op.kind ≠ .chars)
    (hhex : kind = .words → op.kind ≠ .hex) : kind.Compared [op] size digits := by
  constructor
  · refine ⟨fun hlt => by omega, fun hover => ?_⟩
    obtain ⟨hk, s, hops, -⟩ := hover
    cases hops
    exact absurd rfl (hchars hk)
  · refine ⟨fun hlt => by omega, fun hshort => ?_⟩
    obtain ⟨hk, s, hops, -⟩ := hshort
    cases hops
    exact absurd rfl (hhex hk)

theorem compared_byteChars (s : String) : Compared .bytes [.chars s] (Operand.chars s).size
    (String.ofList (s.toList.flatMap fun c => Text.padLeft 2 (Text.digits .lower 16 c.toNat))) := by
  obtain ⟨hle, hiff⟩ := length_byteChars s.toList
  unfold Compared
  rw [String.length_ofList, Operand.size]
  constructor
  · rw [show (2 * (s.toList.length : Int) < _) ↔ _ from by norm_cast, hiff]
    constructor
    · intro hwide
      exact ⟨rfl, s, rfl, hwide⟩
    · intro hover
      obtain ⟨-, s', hs, hwide⟩ := hover
      cases hs
      exact hwide
  · refine ⟨fun hlt => by omega, fun hshort => ?_⟩
    cases hshort.1

theorem compared_wordHex (s : String) :
    Compared .words [.hex s] (3 * (Operand.hex s).size)
      (String.ofList (padToMultiple 6 s.toList)) := by
  unfold Compared
  rw [String.length_ofList, length_padToMultiple_six, Operand.size]
  push_cast
  constructor
  · refine ⟨fun hlt => by omega, fun hover => ?_⟩
    cases hover.1
  · constructor
    · intro hlt
      exact ⟨rfl, s, rfl, by omega⟩
    · intro hshort
      obtain ⟨-, s', hs, hlong⟩ := hshort
      cases hs
      omega

theorem compared_of_allot {kind : Storage} {ops : List Operand} {a : Int} {al : Allotment}
    (hkind : kind = .bytes ∨ kind = .words) (h : kind.allot a ops = .ok al)
    (hp : al.problems = []) :
    ∃ digits, kind.digits? ops = some digits ∧ kind.Compared ops al.size digits := by
  unfold allot at h
  split at h <;> cases h
  · next v =>
    simp only [ite_eq_left_iff, reduceCtorEq, imp_false, not_not] at hp
    refine ⟨_, rfl, compared_of_eq ?_ nofun nofun⟩
    rw [Text.length_hex hp.1 (by decide) (by omega)]
    rfl
  · next s =>
    refine ⟨_, rfl, compared_of_eq ?_ nofun nofun⟩
    rw [String.length_ofList, length_wordChars]
    show ((6 * s.toList.length : Nat) : Int) = 2 * (3 * s.toList.length)
    omega
  · next s => exact ⟨_, rfl, compared_wordHex s⟩
  · simp at hkind
  · next v =>
    simp only [ite_eq_left_iff, reduceCtorEq, imp_false, not_not] at hp
    refine ⟨_, rfl, compared_of_eq ?_ nofun nofun⟩
    rw [Text.length_hex hp.1 (by decide) (by omega)]
    rfl
  · next s => exact ⟨_, rfl, compared_byteChars s⟩
  · next s =>
    refine ⟨_, rfl, compared_of_eq ?_ nofun nofun⟩
    rw [String.length_ofList, length_padToMultiple_two]
    show ((2 * ((s.toList.length + 1) / 2) : Nat) : Int) = 2 * ((s.toList.length + 1) / 2 : Nat)
    omega
  · simp at hkind

theorem isHexadecimal_digits? {kind : Storage} {ops : List Operand} {a : Int} {al : Allotment}
    (h : kind.allot a ops = .ok al) (hp : al.problems = []) (hops : ∀ op ∈ ops, op.WellWritten)
    {digits : String} (hd : kind.digits? ops = some digits) :
    ∀ c ∈ digits.toList, Text.isHexadecimal c = true := by
  have hpad : ∀ n, ∀ ds : List Char, (∀ c ∈ ds, Text.isHexadecimal c = true) →
      ∀ c ∈ padToMultiple n ds, Text.isHexadecimal c = true := by
    intro n ds hds c hc
    cases List.mem_append.1 hc with
    | inl hzero =>
      rw [List.eq_of_mem_replicate hzero]
      decide
    | inr hc => exact hds c hc
  have hchars : ∀ (cs : List Char) (lc : Text.LetterCase) (w : Nat),
      ∀ c ∈ cs.flatMap fun c => Text.padLeft w (Text.digits lc 16 c.toNat),
      Text.isHexadecimal c = true := by
    intro cs lc w c hc
    obtain ⟨x, -, hx⟩ := List.mem_flatMap.1 hc
    exact Text.isHexadecimal_padLeft (Text.isHexadecimal_digits lc _) c hx
  unfold allot at h
  split at h <;> cases h <;> cases hd
  · simp only [ite_eq_left_iff, reduceCtorEq, imp_false, not_not] at hp
    exact Text.isHexadecimal_hex _ _ hp.1
  · rw [String.toList_ofList]
    exact hchars _ _ _
  · rw [String.toList_ofList]
    exact hpad _ _ (hops _ (by simp) _ rfl).2
  · simp only [ite_eq_left_iff, reduceCtorEq, imp_false, not_not] at hp
    exact Text.isHexadecimal_hex _ _ hp.1
  · rw [String.toList_ofList]
    exact hchars _ _ _
  · rw [String.toList_ofList]
    exact hpad _ _ (hops _ (by simp) _ rfl).2

end Storage

/-! ## What a pass leaves of a line

All that matters of a state here is where its counter stands and what has been found wrong. -/

/-- The counter stays, and what was found wrong is kept. -/
def Keeps (p q : Int × List Diagnostic) : Prop := q.1 = p.1 ∧ p.2 <+: q.2

/-- What was found wrong is kept, and if nothing is added, then the counter moves by the space of
the directive. -/
def Lays (kind : Storage) (ops : List Operand) (p q : Int × List Diagnostic) : Prop :=
  p.2 <+: q.2 ∧
    (q.2 = p.2 → ∃ al, kind.allot p.1 ops = .ok al ∧ al.problems = [] ∧ q.1 = p.1 + al.size)

theorem Keeps.refl (p : Int × List Diagnostic) : Keeps p p := ⟨rfl, List.prefix_rfl⟩

theorem Keeps.trans {p q r : Int × List Diagnostic} (h : Keeps p q) (h' : Keeps q r) : Keeps p r :=
  ⟨h'.1.trans h.1, h.2.trans h'.2⟩

theorem Keeps.report (a : Int) (found more : List Diagnostic) :
    Keeps (a, found) (a, found ++ more) :=
  ⟨rfl, List.prefix_append _ _⟩

/-- A state that is reported on or stays as it is. -/
theorem Keeps.unless {σ : Type} (mark : σ → Int × List Diagnostic) {b : Bool} {s t : σ}
    {more : List Diagnostic} (h : mark t = ((mark s).1, (mark s).2 ++ more)) :
    Keeps (mark s) (mark (if b then s else t)) := by
  cases b with
  | true => exact .refl _
  | false => exact (congrArg (Keeps (mark s)) h).mpr (.report _ _ _)

theorem Keeps.lays {kind : Storage} {ops : List Operand} {p q r : Int × List Diagnostic}
    (h : Keeps p q) (h' : Lays kind ops q r) : Lays kind ops p r := by
  refine ⟨h.2.trans h'.1, fun hsame => ?_⟩
  have hq : q.2 = p.2 := (h.2.eq_of_length_le (by rw [← hsame]; exact h'.1.length_le)).symm
  obtain ⟨al, hal, hp, hr⟩ := h'.2 (hsame.trans hq.symm)
  rw [h.1] at hal hr
  exact ⟨al, hal, hp, hr⟩

/-- What storage directives do in all passes: they report operands of a wrong form, or report what
is wrong with the value and take the space. -/
theorem lays_of_storage {σ : Type} (mark : σ → Int × List Diagnostic) {kind : Storage}
    {ops : List Operand} {a : Int} {found : List Diagnostic} {site : Site} {refuse : Problem → σ}
    {take : Allotment → List Problem → σ} {s' : σ}
    (hrefuse : ∀ p, mark (refuse p) = (a, found ++ site.report [p]))
    (htake : ∀ al ps, mark (take al ps) = (a + al.size, found ++ site.report ps))
    (h : (match kind.allot a ops with
      | .error p => .ok (refuse p)
      | .ok al => (Problem.worded al.problems).map (take al)) = (.ok s' : Except Fault σ)) :
    Lays kind ops (a, found) (mark s') := by
  cases hal : kind.allot a ops with
  | error p =>
    rw [hal] at h
    cases h
    rw [hrefuse]
    refine ⟨List.prefix_append _ _, fun hsame => ?_⟩
    simp [Site.report] at hsame
  | ok al =>
    rw [hal] at h
    obtain ⟨ps, hps, rfl⟩ := (map_eq_ok_iff _ _ _).1 h
    rw [htake]
    refine ⟨List.prefix_append _ _, fun hsame => ⟨al, hal, ?_, rfl⟩⟩
    have hnil : ps = [] := by simpa using hsame
    rwa [Problem.eq_of_worded hps] at hnil

/-! ## The passes -/

variable {table : OpTable} {use : NameUse} {kind : Storage} {l : Line} {n : Nat}

namespace TwoPass.Flat.Scan

variable {s s' : Scan}

theorem lays_of_line {d : Dialect}
    (hst : Statement.ofMnemonic d.layout table l.mnemonic = .storage kind)
    (h : s.line d table use n l = .ok s') :
    Lays kind l.operands (s.counter, s.found) (s'.counter, s'.found) := by
  have hstarted :
      Keeps (s.counter, s.found) ((s.expectStarted n).counter, (s.expectStarted n).found) :=
    .unless (fun s : Scan => (s.counter, s.found)) rfl
  have hlabel :
      ∀ s : Scan,
        Keeps (s.counter, s.found) ((s.noteLabel n l).counter, (s.noteLabel n l).found) := by
    intro s
    unfold noteLabel
    split
    · exact .refl _
    · split <;> exact .report _ _ _
  rw [line, hst] at h
  apply (hstarted.trans (hlabel _)).lays
  exact lays_of_storage (fun s => (s.counter, s.found)) (fun _ => rfl) (fun _ _ => rfl) h

end TwoPass.Flat.Scan

namespace TwoPass.Sectioned.Scan

variable {s s' : Scan}

theorem keeps_of_noteLabel (h : s.noteLabel n l = .ok s') :
    Keeps (s.counter, s.found) (s'.counter, s'.found) := by
  unfold noteLabel at h
  split at h
  · cases h
    exact .refl _
  · obtain ⟨ns, -, rfl⟩ := (map_eq_ok_iff _ _ _).1 h
    split
    · exact .refl _
    · split
      · exact .refl _
      · exact .report _ _ _

theorem lays_of_line (hst : Statement.ofMnemonic .sectioned table l.mnemonic = .storage kind)
    (h : s.line table use n l = .ok s') :
    Lays kind l.operands (s.counter, s.found) (s'.counter, s'.found) := by
  have hstarted :
      Keeps (s.counter, s.found) ((s.expectStarted n).counter, (s.expectStarted n).found) :=
    .unless (fun s : Scan => (s.counter, s.found)) rfl
  simp only [line, hst] at h
  split at h
  · cases h
  · next s₁ hs₁ =>
    apply (hstarted.trans (keeps_of_noteLabel hs₁)).lays
    exact lays_of_storage (fun s => (s.counter, s.found)) (fun _ => rfl) (fun _ _ => rfl) h

end TwoPass.Sectioned.Scan

namespace OnePass.Absolute.State

variable {s s' : State}

theorem lays_of_line (hst : Statement.ofMnemonic .absolute table l.mnemonic = .storage kind)
    (h : s.line table use n l = .ok s') :
    Lays kind l.operands (s.counter, s.found) (s'.counter, s'.found) := by
  have hstarted :
      Keeps (s.counter, s.found) ((s.expectStarted n).counter, (s.expectStarted n).found) :=
    .unless (fun s : State => (s.counter, s.found)) rfl
  simp only [line, hst, takeIn] at h
  split at h
  · cases h
  · next s₁ hs₁ =>
    obtain ⟨qs, names, waiting, records, -, rfl⟩ := noteLabel_eq hs₁
    apply (hstarted.trans (.report _ _ ((Site.line n).report qs))).lays
    obtain ⟨s₂, hs₂, rfl⟩ := (map_eq_ok_iff _ _ _).1 h
    exact lays_of_storage (fun s => (s.counter, s.found)) (fun _ => rfl) (fun _ _ => rfl) hs₂

end OnePass.Absolute.State

namespace OnePass.Relocatable.State

variable {s s' : State}

theorem lays_of_line (hst : Statement.ofMnemonic .relocatable table l.mnemonic = .storage kind)
    (h : s.line table use n l = .ok s') :
    Lays kind l.operands (s.counter, s.found) (s'.counter, s'.found) := by
  have hstarted :
      Keeps (s.counter, s.found) ((s.expectStarted n).counter, (s.expectStarted n).found) :=
    .unless (fun s : State => (s.counter, s.found)) rfl
  simp only [line, hst, takeIn] at h
  split at h
  · cases h
  · next s₁ hs₁ =>
    obtain ⟨qs, names, waiting, drafts, -, rfl⟩ := noteLabel_eq hs₁
    apply (hstarted.trans (.report _ _ ((Site.line n).report qs))).lays
    obtain ⟨s₂, hs₂, rfl⟩ := (map_eq_ok_iff _ _ _).1 h
    exact lays_of_storage (fun s => (s.counter, s.found)) (fun _ => rfl) (fun _ _ => rfl) hs₂

end OnePass.Relocatable.State

namespace OnePass.Sectioned.State

variable {s s' : State}

theorem keeps_of_fillPlaces {places : List (Option Nat)} (h : s.fillPlaces places = .ok s') :
    Keeps (s.counter, s.found) (s'.counter, s'.found) := by
  induction places generalizing s with
  | nil =>
    cases h
    exact .refl _
  | cons place places ih =>
    rw [fillPlaces] at h
    split at h
    · cases h
    · next s₁ hs₁ =>
      refine Keeps.trans ?_ (ih h)
      simp only [fillAt] at hs₁
      split at hs₁
      · cases hs₁
      · split at hs₁
        · cases hs₁
          exact .refl _
        · cases hs₁
          exact .report _ _ _

theorem keeps_of_noteLabel (h : s.noteLabel l = .ok s') :
    Keeps (s.counter, s.found) (s'.counter, s'.found) := by
  unfold noteLabel at h
  split at h
  · cases h
    exact .refl _
  · next x hx =>
    split at h
    · cases h
    · next ns hns =>
      split at h
      · cases h
        exact .report _ _ _
      · apply (Keeps.report s.counter s.found
          ((Site.inSection s.current s.counter).report (rangeProblems s.counter (.label x)))).trans
        unfold fillWaiting at h
        split at h
        · cases h
          exact .refl _
        · obtain ⟨s₁, hs₁, rfl⟩ := (map_eq_ok_iff _ _ _).1 h
          exact keeps_of_fillPlaces hs₁

theorem lays_of_line (hst : Statement.ofMnemonic .sectioned table l.mnemonic = .storage kind)
    (h : s.line table use l = .ok s') :
    Lays kind l.operands (s.counter, s.found) (s'.counter, s'.found) := by
  have hstarted : Keeps (s.counter, s.found) (s.expectStarted.counter, s.expectStarted.found) :=
    .unless (fun s : State => (s.counter, s.found)) rfl
  simp only [line, hst] at h
  split at h
  · cases h
  · next s₁ hs₁ =>
    apply (hstarted.trans (keeps_of_noteLabel hs₁)).lays
    exact lays_of_storage (fun s => (s.counter, s.found)) (fun _ => rfl) (fun _ _ => rfl) h

end OnePass.Sectioned.State

/-- The first pass of a dialect reads a line, finds nothing wrong with it and moves its counter from
one address to another. -/
inductive Advances (table : OpTable) (use : NameUse) (l : Line) : Dialect → Int → Int → Prop
  | flat {layout : Layout} {s s' : TwoPass.Flat.Scan} {n : Nat} (hlayout : layout ≠ .sectioned)
      (hline : s.line ⟨layout, .twoPass⟩ table use n l = .ok s') (hfound : s'.found = s.found) :
      Advances table use l ⟨layout, .twoPass⟩ s.counter s'.counter
  | sectioned {s s' : TwoPass.Sectioned.Scan} {n : Nat} (hline : s.line table use n l = .ok s')
      (hfound : s'.found = s.found) :
      Advances table use l ⟨.sectioned, .twoPass⟩ s.counter s'.counter
  | absoluteAtOnce {s s' : OnePass.Absolute.State} {n : Nat} (hline : s.line table use n l = .ok s')
      (hfound : s'.found = s.found) :
        Advances table use l ⟨.absolute, .onePass⟩ s.counter s'.counter
  | relocatableAtOnce {s s' : OnePass.Relocatable.State} {n : Nat}
      (hline : s.line table use n l = .ok s') (hfound : s'.found = s.found) :
        Advances table use l ⟨.relocatable, .onePass⟩ s.counter s'.counter
  | sectionedAtOnce {s s' : OnePass.Sectioned.State} (hline : s.line table use l = .ok s')
      (hfound : s'.found = s.found) :
      Advances table use l ⟨.sectioned, .onePass⟩ s.counter s'.counter

theorem Advances.allot {d : Dialect} {a b : Int} (h : Advances table use l d a b)
    (hm : l.mnemonic = kind.mnemonic) :
    ∃ al, kind.allot a l.operands = .ok al ∧ al.problems = [] ∧ b = a + al.size := by
  have hst : ∀ layout, Statement.ofMnemonic layout table l.mnemonic = .storage kind := by
    intro layout
    rw [hm]
    cases kind <;> rfl
  cases h with
  | flat hlayout hline hfound => exact (TwoPass.Flat.Scan.lays_of_line (hst _) hline).2 hfound
  | sectioned hline hfound => exact (TwoPass.Sectioned.Scan.lays_of_line (hst _) hline).2 hfound
  | absoluteAtOnce hline hfound =>
    exact (OnePass.Absolute.State.lays_of_line (hst _) hline).2 hfound
  | relocatableAtOnce hline hfound =>
    exact (OnePass.Relocatable.State.lays_of_line (hst _) hline).2 hfound
  | sectionedAtOnce hline hfound =>
    exact (OnePass.Sectioned.State.lays_of_line (hst _) hline).2 hfound

/-- The data of a byte or word directive that the first pass of any dialect accepts have two digits
for each byte the counter moves by, unless a character of a byte directive takes more than a byte
(there are more digits then) or the hexadecimal string of a word directive has more than two digits
(there are fewer). -/
theorem data_fill_space_iff (d : Dialect) (table : OpTable) (use : NameUse) (kind : Storage)
    (hkind : kind = .bytes ∨ kind = .words) (l : Line) (hm : l.mnemonic = kind.mnemonic) (a b : Int)
    (h : Advances table use l d a b) :
    ∃ digits, kind.digits? l.operands = some digits ∧
      (l.WellWritten → ∀ c ∈ digits.toList, Text.isHexadecimal c = true) ∧
      ((digits.length : Int) = 2 * (b - a) ↔ ¬ kind.Overruns l.operands ∧
        ¬ kind.FallsShort l.operands) ∧
      (2 * (b - a) < digits.length ↔ kind.Overruns l.operands) ∧
      ((digits.length : Int) < 2 * (b - a) ↔ kind.FallsShort l.operands) := by
  obtain ⟨al, hal, hp, hb⟩ := h.allot hm
  obtain ⟨digits, hdigits, hover, hshort⟩ := Storage.compared_of_allot hkind hal hp
  have hsize : b - a = al.size := by omega
  rw [hsize, ← hover, ← hshort]
  refine ⟨digits, hdigits, fun hw => Storage.isHexadecimal_digits? hal hp hw hdigits, ?_, Iff.rfl,
    Iff.rfl⟩
  omega

/-- Two bytes of digits are written into the six bytes of a word directive, and three digits into
one byte. -/
theorem misfittingData_lengths :
    ∃ digits digits', Storage.words.digits? [.hex "1234"] = some digits ∧
      Storage.bytes.digits? [.chars "Ж"] = some digits' ∧
      Advances (.ofTriples []) .both ⟨none, ⟨"WORD", [.hex "1234"]⟩⟩ ⟨.absolute, .twoPass⟩ 1 7 ∧
      Advances (.ofTriples []) .both ⟨none, ⟨"BYTE", [.chars "Ж"]⟩⟩ ⟨.sectioned, .onePass⟩ 0 1 ∧
      (digits.length : Int) < 2 * (7 - 1) ∧ 2 * (1 - 0) < (digits'.length : Int) := by
  have hword :
      Advances (.ofTriples []) .both ⟨none, ⟨"WORD", [.hex "1234"]⟩⟩ ⟨.absolute, .twoPass⟩ 1 7 := by
    obtain ⟨s', hline, hfound, hcounter⟩ :
        ∃ s', (⟨1, true, false, ∅, [], []⟩ : TwoPass.Flat.Scan).line ⟨.absolute, .twoPass⟩
          (.ofTriples []) .both 1 ⟨none, ⟨"WORD", [.hex "1234"]⟩⟩ = .ok s' ∧ s'.found = [] ∧
          s'.counter = 7 := ⟨_, rfl, rfl, rfl⟩
    rw [← hcounter]
    exact .flat (by decide) hline hfound
  have hbyte :
      Advances (.ofTriples []) .both ⟨none, ⟨"BYTE", [.chars "Ж"]⟩⟩ ⟨.sectioned, .onePass⟩ 0 1 := by
    obtain ⟨s', hline, hfound, hcounter⟩ :
        ∃ s', { OnePass.Sectioned.State.start with started := true }.line (.ofTriples []) .both
          ⟨none, ⟨"BYTE", [.chars "Ж"]⟩⟩ = .ok s' ∧ s'.found = [] ∧ s'.counter = 1 :=
          ⟨_, rfl, rfl, rfl⟩
    rw [← hcounter]
    exact .sectionedAtOnce hline hfound
  obtain ⟨digits, hdigits, -, -, -, hshort⟩ :=
    data_fill_space_iff _ _ _ .words (.inr rfl) _ rfl _ _ hword
  obtain ⟨digits', hdigits', -, -, hover, -⟩ :=
    data_fill_space_iff _ _ _ .bytes (.inl rfl) _ rfl _ _ hbyte
  exact ⟨digits, digits', hdigits, hdigits', hword, hbyte, hshort.2 ⟨rfl, _, rfl, by decide⟩,
    hover.2 ⟨rfl, _, rfl, 'Ж', by decide, by decide⟩⟩

end Assembler
