import Assembler.Proofs.Displacements
import Assembler.Proofs.FailingListings
import Assembler.Proofs.Relocation
import Assembler.Proofs.RepeatedLabels
import Assembler.Proofs.SectionBlocks
import Assembler.Proofs.TextLengths

/-! # Listings under another table

A program that has a listing under one operation table may be refused under another, or the first
pass may even fail on it. A listing tells something of the lines that does not depend on the table:
their constants are small and so is the space they take (`Line.Settled`).  So if the first pass
fails under the other table, then because of a command without value (`unvalued_of_error`), and
under that table no code can be made of the listing either (`not_made_of_error`). -/

namespace Assembler
open OnePass.Relocatable (upToEnd upToEnd_of_frame)
open TwoPass.Sectioned (LongAddress sectionEnd)
set_option autoImplicit false

variable {layout : Layout} {A B : OpTable} {use : NameUse} {program : List Line} {rows : List Row}
  {symbols : Symbols} {l : Line} {a : Int} {n : Nat}

/-! ## Lines that fit under a table -/

theorem Admitted.hasDecimal_constant {size : Int} {ops : List Operand} (h : Admitted size ops) :
    ∀ o ∈ ops, Text.hasDecimal o.constant = true := by
  cases h with
  | nothing => simp
  | byte v h0 h1 =>
    rw [List.forall_mem_singleton]
    refine hasDecimal_of_natAbs_lt ?_
    change v.natAbs < _
    omega
  | registers i j => simpa using ⟨hasDecimal_constant_register i, hasDecimal_constant_register j⟩
  | character op hs hsize =>
    rw [List.forall_mem_singleton]
    refine hasDecimal_constant_of_string hs fun v hv => ?_
    cases op with
    | chars s =>
      have hlength := length_charDigits_le s
      simp only [Operand.size] at hsize
      exact hasDecimal_of_short (by omega) hv
    | hex s =>
      simp only [Operand.size] at hsize
      exact hasDecimal_of_short (by omega) hv
    | _ => cases hs
  | distance name => exact List.forall_mem_singleton.2 rfl
  | address name => exact List.forall_mem_singleton.2 rfl
  | number v hv => exact List.forall_mem_singleton.2 hv.hasDecimal
  | text op v hs hv hmem =>
    rw [List.forall_mem_singleton, constant_of_stringValue hs hv]
    exact hmem.hasDecimal

theorem Statement.ofMnemonic_storage_of_eq {m : String} {kind : Storage}
    (h : Statement.ofMnemonic layout A m = .storage kind) (B : OpTable) :
    Statement.ofMnemonic layout B m = .storage kind := by
  obtain rfl : m = kind.mnemonic := stands_of_eq h
  cases kind <;> rfl

namespace Storage

variable {kind : Storage} {ops : List Operand} {al : Allotment}

theorem hasDecimal_of_allot (h : kind.allot a ops = .ok al) (hp : al.problems = [])
    (hkind : kind = .words ∨ kind = .bytes) :
    ∀ v, .number v ∈ ops → Text.hasDecimal v = true := by
  intro v hv
  refine hasDecimal_of_natAbs_lt ?_
  unfold allot at h
  split at h <;> cases h
  all_goals simp at hv hkind hp
  all_goals omega

theorem extent_le (h : kind.allot a ops = .ok al) (hp : al.problems = []) (ha : 0 ≤ a)
    (hshort : ∀ op ∈ ops, op.Short n) :
    kind.extent ops ≤ 0xFFFFFF + 3 * n := by
  rw [← (allot_eq h).1]
  unfold allot at h
  split at h <;> cases h
  all_goals simp [reservation, InMemory, lastAddress, Operand.Short, Operand.size] at hp hshort ⊢
  all_goals omega

end Storage

/-- The directives that take no space. -/
def Layout.spaceless : Layout → List String
  | .sectioned => ["START", "END", "CSECT", "EXTDEF", "EXTREF"]
  | _ => ["START", "END"]

theorem Statement.ofMnemonic_of_spaceless {m : String} (h : m ∈ layout.spaceless)
    (table : OpTable) :
    (∀ kind, Statement.ofMnemonic layout table m ≠ .storage kind) ∧
      ∀ op, Statement.ofMnemonic layout table m ≠ .command op := by
  refine ⟨fun kind hst => ?_, fun op hst => ?_⟩
  · obtain rfl : m = kind.mnemonic := stands_of_eq hst
    have hnot : kind.mnemonic ∉ layout.spaceless := by cases layout <;> cases kind <;> decide
    exact hnot h
  · have hall : layout.spaceless ⊆ layout.directives := by cases layout <;> decide
    exact (ofMnemonic_eq_command_iff.1 hst).1 (hall h)

/-- Nothing is wrong with a line under a table: it is a directive without space, or it fits
somewhere in memory. -/
def Line.Settled (layout : Layout) (table : OpTable) (l : Line) : Prop :=
  l.mnemonic ∈ layout.spaceless ∨ ∃ use a, 0 ≤ a ∧ l.Fits layout table use a

/-- Under any other table its problems can be told. -/
theorem Line.Settled.tellable (h : l.Settled layout A) (hA : A.Sized layout) (hB : B.Sized layout) :
    l.Tellable layout B := by
  unfold Line.Tellable
  split
  · next kind hst =>
    intro hkind
    obtain hl | ⟨use, a, -, hfits⟩ := h
    · exact absurd hst ((Statement.ofMnemonic_of_spaceless hl B).1 kind)
    · rw [Line.Fits, Statement.ofMnemonic_storage_of_eq hst A] at hfits
      obtain ⟨al, hal, hp⟩ := hfits
      exact Storage.hasDecimal_of_allot hal hp hkind
  · next op hst =>
    obtain hl | ⟨use, a, -, hfits⟩ := h
    · exact absurd hst ((Statement.ofMnemonic_of_spaceless hl B).2 op)
    · have hsize := Layout.mem_commandSizes (hB.mem_commandSizes hst)
      refine ⟨hasDecimal_of_natAbs_lt (by omega), ?_⟩
      obtain ⟨kind, al, hk, -⟩ | ⟨op', hop', -⟩ := hfits.cases
      · rw [Statement.ofMnemonic_storage_of_eq hk B] at hst
        cases hst
      · exact (hfits.admitted hA hop').hasDecimal_constant
  · trivial

/-- Under any other table it takes only so much space. -/
theorem Line.Settled.natAbs_extent_le (h : l.Settled layout A) (hB : B.Sized layout)
    (hshort : ∀ op ∈ l.operands, op.Short n) : (l.extent layout B).natAbs ≤ 0xFFFFFF + 3 * n := by
  unfold Line.extent
  split
  · next kind hst =>
    obtain hl | ⟨use, a, ha, hfits⟩ := h
    · exact absurd hst ((Statement.ofMnemonic_of_spaceless hl B).1 kind)
    · rw [Line.Fits, Statement.ofMnemonic_storage_of_eq hst A] at hfits
      obtain ⟨al, hal, hp⟩ := hfits
      have hnonneg := Storage.extent_nonneg hal hp
      have hle := Storage.extent_le hal hp ha hshort
      omega
  · next op hst =>
    have hsize := Layout.mem_commandSizes (hB.mem_commandSizes hst)
    omega
  · exact Nat.zero_le _

/-! ## Lines and rows of a listing -/

/-- The lines of a program and the rows of its listing. -/
structure Lists (layout : Layout) (table : OpTable) (program : List Line) (rows : List Row) :
    Prop where
  settled : ∀ l ∈ upToEnd program, l.Settled layout table
  carried : ∀ l ∈ upToEnd program, ∃ r ∈ rows, r.line = l
  lines : ∀ r ∈ rows, r.line ∈ upToEnd program ∨ layout = .sectioned ∧ r.line.mnemonic = sectionEnd
  load : layout = .sectioned → ∀ l ∈ upToEnd program, l.mnemonic = "START" →
    (onlyNumber? l.operands).getD 0 = 0

theorem TwoPass.Flat.lists_of_list (hl : layout ≠ .sectioned) (hA : A.Sized layout)
    (h : list ⟨layout, .twoPass⟩ A use program = .ok (.listed rows symbols)) :
    Lists layout A program rows := by
  obtain ⟨first, body, last, rest, rfl, hprog, rfl, -⟩ := (list_eq_listed_iff _ _ _ _ _ _).1 h
  have hbody : (flatRows layout A first body).map (·.1.line) = body :=
    placed_map_line layout A none (layout.load first) body
  have hcut :
      upToEnd (first :: (body ++ last :: rest)) = (listedRows layout A first body last).map
        Row.line := by
    rw [upToEnd_of_frame hprog.start hprog.body_fits.not_frame hprog.finish]
    simp only [listedRows, List.map_cons, List.map_append, List.map_map, List.map_nil]
    exact congrArg (fun ls => first :: (ls ++ [last])) hbody.symm
  have hframe : "START" ∈ layout.spaceless ∧ "END" ∈ layout.spaceless := by cases layout <;> decide
  refine ⟨fun l hl => ?_, fun l hl => ?_, fun r hr => .inl ?_, fun hsec => absurd hsec hl⟩
  · rw [upToEnd_of_frame hprog.start hprog.body_fits.not_frame hprog.finish, List.mem_cons,
      List.mem_append, List.mem_singleton] at hl
    obtain rfl | hl | rfl := hl
    · exact .inl (hprog.start ▸ hframe.1)
    · rw [← hbody] at hl
      obtain ⟨p, hp, rfl⟩ := List.mem_map.1 hl
      obtain ⟨hfits, -, hload, -⟩ := hprog.bounds hA hp
      exact .inr ⟨_, _, hprog.load.1.trans hload, hfits⟩
    · exact .inl (hprog.finish ▸ hframe.2)
  · rw [hcut] at hl
    exact List.mem_map.1 hl
  · rw [hcut]
    exact List.mem_map_of_mem hr

theorem sectionsFrom_upToEnd (opener : Line) (ls : List Line) :
    sectionsFrom opener (upToEnd ls) = sectionsFrom opener ls := by
  induction ls generalizing opener with
  | nil => rfl
  | cons l ls ih =>
    rw [upToEnd]
    split
    · next hend => simp [sectionsFrom, hend]
    · next hend => simp only [sectionsFrom, hend, if_false, ih]

namespace TwoPass.Sectioned

theorem load_of_list {first : Line} {ls : List Line} (hfirst : first.mnemonic = "START")
    (h : list A use (first :: ls) = .ok (.listed rows symbols)) :
    (onlyNumber? first.operands).getD 0 = 0 := by
  have hline : Scan.start.line A use 1 first = .ok (Scan.start.startLine 1 first) := by
    rw [Scan.line, (Statement.ofMnemonic_eq_start_iff _ _ _).2 hfirst]
  unfold list at h
  rw [Scan.lines_eq, runLines_cons rfl, hline] at h
  cases hrun : runLines (Scan.line A use) Scan.ended (Scan.start.startLine 1 first) 2 ls with
  | error x => simp [hrun] at h
  | ok s =>
    simp only [hrun] at h
    split at h
    · have hfound : s.found = [] := by
        have hlisting := Except.ok.inj h
        unfold Scan.listing at hlisting
        split at hlisting
        · next hempty =>
          rw [Scan.allFound, List.isEmpty_iff, List.append_eq_nil_iff] at hempty
          exact hempty.1
        · cases hlisting
      have hclean := clean_of_runLines (Scan.stepping A use) hrun hfound
      obtain ⟨-, -, hstart⟩ := Scan.startLine_clean hfirst hline hclean
      exact congrArg Scan.counter hstart
    · cases h

theorem mem_upToEnd_of_mem_controlSections (h : Framed program) {sec : ControlSection}
    (hsec : sec ∈ controlSections program) :
    sec.opener ∈ upToEnd program ∧ sec.closer ∈ upToEnd program ∧ ∀ m ∈ sec.body,
      m ∈ upToEnd program := by
  obtain ⟨first, body, last, rest, rfl, hfirst, hbody, hlast⟩ := h
  have hlines := sectionsFrom_flatMap first rest hbody hlast
  have hopener : sec.opener ∈ first :: body := by
    rw [← hlines]
    exact List.mem_flatMap.2 ⟨sec, hsec, List.mem_cons_self⟩
  rw [controlSections, ← sectionsFrom_upToEnd] at hsec
  have hrest :
      upToEnd (first :: (body ++ last :: rest)) = first :: upToEnd (body ++ last :: rest) := by
    rw [upToEnd, if_neg (by simp [hfirst])]
  obtain ⟨hcloser, hinside⟩ := mem_of_mem_sectionsFrom hsec
  refine ⟨?_, ?_, fun m hm => ?_⟩
  · rw [upToEnd_of_frame hfirst hbody hlast, ← List.cons_append]
    exact List.mem_append_left _ hopener
  · rw [hrest]
    exact List.mem_cons_of_mem _ hcloser
  · rw [hrest]
    exact List.mem_cons_of_mem _ (hinside m hm)

theorem exists_section_of_mem_upToEnd (h : Framed program) (hl : l ∈ upToEnd program) :
    ∃ sec ∈ controlSections program, l = sec.opener ∨ l ∈ sec.body ∨ l = sec.closer ∧
      l.mnemonic = "END" := by
  obtain ⟨first, body, last, rest, rfl, hfirst, hbody, hlast⟩ := h
  rw [upToEnd_of_frame hfirst hbody hlast, ← List.cons_append, List.mem_append, List.mem_singleton]
    at hl
  obtain hl | rfl := hl
  · rw [← sectionsFrom_flatMap first rest hbody hlast] at hl
    obtain ⟨sec, hsec, hl⟩ := List.mem_flatMap.1 hl
    exact ⟨sec, hsec, (List.mem_cons.1 hl).imp_right .inl⟩
  · obtain ⟨done, sec, hcut, rfl⟩ := exists_last_sectionsFrom first rest hbody hlast
    exact ⟨sec, by rw [controlSections, hcut]; simp, .inr (.inr ⟨rfl, hlast⟩)⟩

theorem Listed.settled {sec : ControlSection} (h : Listed A use sec) (hA : A.Sized .sectioned)
    (hl : l ∈ sec.body) :
    l.Settled .sectioned A := by
  have hnonneg : ∀ p ∈ sec.rows A, 0 ≤ p.2 := fun p hp => by
    rw [snd_of_mem_placed _ _ _ hp]
    exact (h.fits p hp).extent_nonneg hA
  rw [← placed_map_line .sectioned A sec.opener.label 0 sec.body] at hl
  obtain ⟨p, hp, rfl⟩ := List.mem_map.1 hl
  obtain hfits | ⟨hlink, -⟩ := h.fits p hp
  · exact .inr ⟨use, _, ((bounds_of_nonneg hnonneg).2 p hp).1, hfits⟩
  · refine .inl ?_
    rcases hlink with hlink | hlink <;> rw [hlink] <;> decide

theorem lists_of_list (hA : A.Sized .sectioned)
    (h : list A use program = .ok (.listed rows symbols)) :
    Lists .sectioned A program rows := by
  obtain ⟨hframed, sections, -, haccepted, -⟩ := of_list h
  have hrows := haccepted.rows_eq
  subst hrows
  refine ⟨fun l hl => ?_, fun l hl => ?_, fun r hr => ?_, fun _ l hl hstart => ?_⟩
  · obtain ⟨sec, hsec, rfl | hbody | ⟨-, hend⟩⟩ := exists_section_of_mem_upToEnd hframed hl
    · refine .inl ?_
      rcases (haccepted.listed sec hsec).opener with hopener | hopener <;> rw [hopener] <;> decide
    · exact (haccepted.listed sec hsec).settled hA hbody
    · exact .inl (by rw [hend]; decide)
  · obtain ⟨sec, hsec, hmem⟩ := exists_section_of_mem_upToEnd hframed hl
    have hin : ∀ r ∈ listedRows A sec, r ∈ (controlSections program).flatMap (listedRows A) :=
      fun r hr =>
      List.mem_flatMap.2 ⟨sec, hsec, hr⟩
    obtain rfl | hbody | ⟨rfl, hend⟩ := hmem
    · exact ⟨_, hin _ List.mem_cons_self, rfl⟩
    · rw [← placed_map_line .sectioned A sec.opener.label 0 sec.body] at hbody
      obtain ⟨p, hp, rfl⟩ := List.mem_map.1 hbody
      exact ⟨p.1, hin _ (List.mem_cons_of_mem _ (List.mem_append_left _ (List.mem_map_of_mem hp))),
        rfl⟩
    · refine ⟨_,
        hin _ (List.mem_cons_of_mem _ (List.mem_append_right _ (List.mem_singleton_self _))), ?_⟩
      exact if_neg (by simp [hend])
  · obtain ⟨sec, hsec, hr⟩ := List.mem_flatMap.1 hr
    obtain ⟨hopener, hcloser, hbody⟩ := mem_upToEnd_of_mem_controlSections hframed hsec
    rw [listedRows, List.mem_cons, List.mem_append, List.mem_singleton] at hr
    obtain rfl | hr | rfl := hr
    · exact .inl hopener
    · obtain ⟨p, hp, rfl⟩ := List.mem_map.1 hr
      exact .inl (hbody _ (line_mem_of_mem_rows hp))
    · simp only [closingLine]
      split
      · exact .inr ⟨trivial, rfl⟩
      · exact .inl hcloser
  · obtain ⟨first, body, last, rest, rfl, hfirst, hbody, hlast⟩ := hframed
    rw [upToEnd_of_frame hfirst hbody hlast, List.mem_cons, List.mem_append, List.mem_singleton]
      at hl
    obtain rfl | hl | rfl := hl
    · exact load_of_list hfirst h
    · exact absurd hstart (hbody l hl).1
    · simp [hlast] at hstart

end TwoPass.Sectioned

theorem lists_of_listProgram (hA : A.Sized layout)
    (h : listProgram ⟨layout, .twoPass⟩ A use program = .ok (.listed rows symbols)) :
    Lists layout A program rows := by
  cases layout with
  | sectioned => exact TwoPass.Sectioned.lists_of_list hA h
  | absolute => exact TwoPass.Flat.lists_of_list (by decide) hA h
  | relocatable => exact TwoPass.Flat.lists_of_list (by decide) hA h

/-! ## Addresses under another table -/

theorem natAbs_extentOf_le {K : Nat} {ls : List Line}
    (h : ∀ l ∈ ls, (l.extent layout B).natAbs ≤ K) :
    (extentOf layout B ls).natAbs ≤ K * ls.length := by
  induction ls with
  | nil => simp [extentOf]
  | cons l ls ih =>
    have hfirst := h l List.mem_cons_self
    have hrest := ih fun k hk => h k (List.mem_cons_of_mem _ hk)
    rw [extentOf, List.length_cons, Nat.mul_succ]
    omega

theorem natAbs_address_le {K : Nat} {ls : List Line}
    (h : ∀ l ∈ ls, (l.extent .sectioned B).natAbs ≤ K)
    (hload : ∀ l ∈ ls, l.mnemonic = "START" → (onlyNumber? l.operands).getD 0 = 0) {sp : Span}
    (hsp : sp ∈ spans B a ls) {r : Row} (hr : r ∈ sp.rows) :
    r.address.natAbs ≤ a.natAbs + K * ls.length := by
  induction ls generalizing a with
  | nil => cases hsp
  | cons l ls ih =>
    have hfirst := h l List.mem_cons_self
    have hrest := fun k hk => h k (List.mem_cons_of_mem _ hk)
    have hbehind : (l.counterBehind B a).natAbs ≤ a.natAbs + K := by
      unfold Line.counterBehind
      split
      · next hstart =>
        have hzero := hload l List.mem_cons_self hstart
        cases hv : onlyNumber? l.operands with
        | none => exact Nat.le_add_right _ _
        | some v =>
          obtain rfl : v = 0 := by simpa [hv] using hzero
          exact Nat.zero_le _
      · split <;> omega
    have hbefore : ∀ pre ⊆ ls, pre.length ≤ ls.length →
        (l.counterBehind B a + extentOf .sectioned B pre).natAbs ≤ a.natAbs +
          K * (l :: ls).length := by
      intro pre hpre hlength
      have hle := natAbs_extentOf_le fun k hk => hrest k (hpre hk)
      have hmul := Nat.mul_le_mul_left K hlength
      rw [List.length_cons, Nat.mul_succ]
      omega
    have hlater : sp ∈ spans B (l.counterBehind B a) ls →
        r.address.natAbs ≤ a.natAbs + K * (l :: ls).length := by
      intro hsp
      have hle := ih hrest (fun k hk => hload k (List.mem_cons_of_mem _ hk)) hsp
      rw [List.length_cons, Nat.mul_succ]
      omega
    rw [spans] at hsp
    split at hsp
    · obtain rfl | hsp := List.mem_cons.1 hsp
      · obtain ⟨p, hp, rfl⟩ := List.mem_map.1 hr
        obtain ⟨pre, k, post, hcut, rfl⟩ := (mem_placed_iff _ _ _).1 hp
        have hprefix : pre <+: ls :=
          (hcut ▸ List.prefix_append pre (k :: post)).trans (List.takeWhile_prefix _)
        exact hbefore pre hprefix.subset hprefix.length_le
      · exact hlater hsp
    · exact hlater hsp

theorem length_upToEnd_le (ls : List Line) : (upToEnd ls).length ≤ ls.length := by
  induction ls with
  | nil => exact Nat.le_refl 0
  | cons l ls ih =>
    rw [upToEnd]
    split
    · simp
    · exact Nat.succ_le_succ ih

theorem Lists.not_longAddress (h : Lists .sectioned A program rows) (hB : B.Sized .sectioned)
    (hn : n < 2 ^ 63) (hcount : program.length ≤ n + 1)
    (hshort : ∀ l ∈ program, ∀ op ∈ l.operands, op.Short n) : ¬ LongAddress B program := by
  rintro ⟨sp, hsp, x, a, -, hfirst, hlong⟩
  have hmem : sp ∈ spans B 0 (upToEnd program) := List.mem_reverse.1 (List.mem_of_find?_eq_some hsp)
  obtain ⟨r, hr, -, rfl⟩ := exists_of_firstAddress hfirst
  have hextent : ∀ l ∈ upToEnd program, (l.extent .sectioned B).natAbs ≤ 0xFFFFFF + 3 * n :=
    fun l hl =>
    (h.settled l hl).natAbs_extent_le hB (hshort l (mem_of_mem_upToEnd hl))
  have haddress := natAbs_address_le hextent (h.load rfl) hmem hr
  have hlength := (length_upToEnd_le program).trans hcount
  have hsmall : (0xFFFFFF + 3 * n) * (upToEnd program).length ≤ (0xFFFFFF + 3 * 2 ^ 63) * 2 ^ 63 :=
    Nat.mul_le_mul (by omega) (by omega)
  have hlimit : 10 ^ 40 ≤ 10 ^ Text.decimalLimit := Nat.pow_le_pow_right (by decide) (by decide)
  have hbound : (0xFFFFFF + 3 * 2 ^ 63) * 2 ^ 63 < 10 ^ 40 := by decide
  rw [Int.natAbs_zero, Nat.zero_add] at haddress
  exact absurd (hlimit.trans hlong) (Nat.not_le.2 ((haddress.trans hsmall).trans_lt hbound))

/-! ## Passes that fail under another table -/

/-- If a program has a listing under one table and the first pass fails under another, then because
of a command that is without value there. -/
theorem unvalued_of_error {text : String} {src : Source} {x : Fault} (hA : A.Sized layout)
    (hB : B.Sized layout) (hparse : Source.parse ⟨layout, .twoPass⟩ text = .ok src)
    (hlength : layout = .sectioned → text.toList.length < 2 ^ 63)
    (hlisted : listProgram ⟨layout, .twoPass⟩ A use src.lines = .ok (.listed rows symbols))
    (hfails : listProgram ⟨layout, .twoPass⟩ B use src.lines = .error x) :
    ∃ l ∈ upToEnd src.lines, l.Unvalued layout B := by
  have hlists := lists_of_listProgram hA hlisted
  have hwritten := fun l hl => Source.wellWritten_of_parse hparse l (mem_of_mem_upToEnd hl)
  have hsound : ∀ table : OpTable, table.Sized layout → ∀ l ∈ upToEnd src.lines,
      l.Sound layout table := fun table ht l hl =>
    ⟨hwritten l hl, (hlists.settled l hl).tellable hA ht⟩
  have hbefore := listProgram_fails layout A use (hsound A hA)
  have hnow := listProgram_fails layout B use (hsound B hB)
  rw [hlisted] at hbefore
  rw [hfails] at hnow
  obtain ⟨-, hvalue⟩ | ⟨rfl, ⟨-, hearly⟩ | ⟨-, hlong⟩⟩ := hnow
  · exact hvalue
  · exact absurd (.inr ⟨rfl, .inl ⟨rfl, hearly⟩⟩) (hbefore.1 (.missingKey (some "")))
  · obtain ⟨hcount, hshort⟩ := Source.lengths_of_parse hparse
    exact absurd hlong (hlists.not_longAddress hB (hlength rfl) hcount hshort)

theorem exists_mem_sizedRows {r : Row} (hr : r ∈ rows) : ∃ size, (r, size) ∈ sizedRows rows := by
  induction rows using sizedRows.induct with
  | case1 => cases hr
  | case2 r' =>
    rw [List.mem_singleton.1 hr]
    exact ⟨_, List.mem_singleton_self _⟩
  | case3 r' next rest ih =>
    rw [sizedRows]
    obtain rfl | hr := List.mem_cons.1 hr
    · exact ⟨_, List.mem_cons_self⟩
    · obtain ⟨size, hsize⟩ := ih hr
      exact ⟨size, List.mem_cons_of_mem _ hsize⟩

theorem CodeRecord.not_unvalued {d : Dialect} {dir : Directory} {p : Row × Int} {o : ObjectRecord}
    (h : CodeRecord d dir B p o) (layout : Layout) : ¬ p.1.line.Unvalued layout B := by
  intro hvalue
  obtain ⟨op, field, -, hfield, -⟩ := h
  rw [hvalue.operands] at hfield
  cases hfield

theorem not_made_of_unvalued {dir : Directory} {r : Row} (hr : r ∈ rows)
    (hvalue : r.line.Unvalued layout B) (records : List ObjectRecord) (ms : List Modification) :
    makeCode ⟨layout, .twoPass⟩ dir B rows ≠ .ok (.made records ms) := by
  intro hmade
  obtain ⟨size, hsize⟩ := exists_mem_sizedRows hr
  obtain ⟨op, hop, -⟩ := hvalue.size
  have hframe : r.line.mnemonic ≠ "START" ∧ r.line.mnemonic ≠ "END" := by
    constructor <;> intro hm <;> refine hvalue.command ?_ <;> rw [hm] <;> cases layout <;> decide
  have hcoded : isCoded layout B (r, size) = true := by simp [isCoded, hop, hframe]
  have hcodes :=
    (List.forall₂_and_left _ _).1
      ((codes_makeCode hmade).imp fun p o h => ⟨h.not_unvalued layout, h⟩)
  exact hcodes.1 _ (List.mem_filter.2 ⟨hsize, hcoded⟩) hvalue

/-- Where the first pass fails under another table, no code is made under it of the listing that
there is. -/
theorem not_made_of_error {text : String} {src : Source} {x : Fault} (hA : A.Sized layout)
    (hB : B.Sized layout) (hparse : Source.parse ⟨layout, .twoPass⟩ text = .ok src)
    (hlength : layout = .sectioned → text.toList.length < 2 ^ 63)
    (hlisted : listProgram ⟨layout, .twoPass⟩ A use src.lines = .ok (.listed rows symbols))
    (hfails : listProgram ⟨layout, .twoPass⟩ B use src.lines = .error x) (dir : Directory)
    (records : List ObjectRecord) (ms : List Modification) :
    makeCode ⟨layout, .twoPass⟩ dir B rows ≠ .ok (.made records ms) := by
  obtain ⟨l, hl, hvalue⟩ := unvalued_of_error hA hB hparse hlength hlisted hfails
  obtain ⟨r, hr, rfl⟩ := (lists_of_listProgram hA hlisted).carried l hl
  exact not_made_of_unvalued hr hvalue records ms

/-! ## Tables of sheets -/

namespace Sheet

/-- As long as there is no problem, the operations are as rows without problems have them. -/
def Reading.InOrder (P : String → Operation → Prop) (s : Reading) : Prop :=
  s.problems = [] → ∀ m op, s.table.get? m = some op → P m op

section

variable {d : Dialect} {sizes : List Int} {P : String → Operation → Prop}
  (hP : ∀ table codes m op, rowProblems sizes table codes m op = [] → P m op)

include hP

theorem Reading.inOrder_addRow {s s' : Reading} {k : Nat} {row : SheetRow} (h : s.InOrder P)
    (hrow : s.addRow d sizes k row = .ok s') : s'.InOrder P := by
  unfold addRow at hrow
  split at hrow
  · obtain rfl := Except.ok.inj hrow
    exact h
  · next mnemonic _ =>
    split at hrow
    · obtain rfl := Except.ok.inj hrow
      exact h
    · obtain ⟨op, -, rfl⟩ := (map_eq_ok_iff _ _ _).1 hrow
      intro hproblems m op' hop'
      obtain ⟨hbefore, hnow⟩ := List.append_eq_nil_iff.1 hproblems
      rw [List.map_eq_nil_iff] at hnow
      rw [OrderedMap.get?_insert] at hop'
      split at hop'
      · next hm =>
        obtain rfl := Option.some.inj hop'
        exact hm ▸ hP _ _ _ _ hnow
      · exact h hbefore m op' hop'

theorem Reading.inOrder_addRows {s s' : Reading} {k : Nat} {rows : List SheetRow} (h : s.InOrder P)
    (hrows : s.addRows d sizes k rows = .ok s') : s'.InOrder P := by
  induction rows generalizing s k with
  | nil =>
    obtain rfl := Except.ok.inj hrows
    exact h
  | cons row rows ih =>
    rw [addRows] at hrows
    split at hrows
    · cases hrows
    · next s₁ hrow => exact ih (inOrder_addRow hP h hrow) hrows

theorem inOrder_of_read {rows : List SheetRow} {s : Reading} (h : Sheet.read d sizes rows = .ok s) :
    s.InOrder P :=
  Reading.inOrder_addRows hP (fun _ m op hop => by cases hop) h

end

/-- A sheet without problems gives operations of sizes that are allowed. -/
theorem size_mem_of_read {d : Dialect} {sizes : List Int} {rows : List SheetRow} {s : Reading}
    (h : Sheet.read d sizes rows = .ok s) (hproblems : s.problems = []) {m : String}
    {op : Operation} (hop : s.table.get? m = some op) : op.size ∈ sizes := by
  refine inOrder_of_read (P := fun _ op => op.size ∈ sizes) (fun table codes m op hrow => ?_) h
    hproblems m op hop
  simp only [rowProblems, List.append_eq_nil_iff] at hrow
  have hsize := hrow.1.2
  by_contra hnot
  simp [hnot] at hsize

end Sheet

end Assembler
