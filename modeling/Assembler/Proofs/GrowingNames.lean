import Assembler.Proofs.GrowingPasses

/-! # Names that were met stay

One pass never forgets a name or a section: a line leaves those of the state in their order, in
front of the ones that it adds, also when something is found wrong.  So a snapshot with names is
followed by snapshots with names only (`symbols_pairwise`). -/

namespace Assembler
set_option autoImplicit false

namespace OrderedMap

theorem isEmpty_iff {κ α : Type} (m : OrderedMap κ α) : m.isEmpty = true ↔ m.keys = [] := by
  simp [isEmpty, keys]

end OrderedMap

namespace OnePass

/-! ## Sectioned programs -/

namespace Sectioned.State

variable {table : OpTable} {use : NameUse} {stmt : Statement} {s s' : State} {l : Line}

theorem keys_setNames (s : State) (ns : SectionNames (Option Int)) :
    s.sections.keys <+: (s.setNames ns).sections.keys :=
  s.sections.keys_prefix_insert _ _

theorem sections_expectStarted (s : State) : s.expectStarted.sections = s.sections := by
  unfold expectStarted
  split <;> rfl

theorem sections_of_writeModifications (h : s.writeModifications = .ok s') :
    s'.sections = s.sections := by
  obtain ⟨ds, -, rfl⟩ := (map_eq_ok_iff _ _ _).1 h
  rfl

theorem sections_of_writeLength (h : s.writeLength = .ok s') : s'.sections = s.sections := by
  obtain ⟨ds, -, rfl⟩ := (map_eq_ok_iff _ _ _).1 h
  rfl

theorem sections_of_fillPlaces {places : List (Option Nat)} (h : s.fillPlaces places = .ok s') :
    s'.sections = s.sections := by
  induction places generalizing s with
  | nil =>
    cases h
    rfl
  | cons place places ih =>
    rw [fillPlaces] at h
    split at h
    · cases h
    · next s₁ hs₁ =>
      rw [ih h]
      simp only [fillAt] at hs₁
      split at hs₁
      · cases hs₁
      · split at hs₁ <;> cases hs₁ <;> rfl

theorem keys_of_noteLabel (h : s.noteLabel l = .ok s') : s.sections.keys <+: s'.sections.keys := by
  unfold noteLabel at h
  split at h
  · cases h
    exact List.prefix_rfl
  · next x _ =>
    split at h
    · cases h
    · next ns _ =>
      split at h
      · cases h
        exact List.prefix_rfl
      · refine (keys_setNames s
          (ns.insert x ⟨some s.counter, (ns.get? x).bind (·.linkage)⟩)).trans ?_
        unfold fillWaiting at h
        split at h
        · cases h
          exact List.prefix_rfl
        · obtain ⟨s₁, hs₁, rfl⟩ := (map_eq_ok_iff _ _ _).1 h
          change _ <+: s₁.sections.keys
          rw [sections_of_fillPlaces hs₁]
          exact List.prefix_rfl

theorem keys_of_waitForAll {ops : List Operand} (h : s.waitForAll ops = .ok s') :
    s.sections.keys <+: s'.sections.keys := by
  induction ops generalizing s with
  | nil =>
    cases h
    exact List.prefix_rfl
  | cons op ops ih =>
    rw [waitForAll] at h
    split at h
    · cases h
    · next s₁ hs₁ =>
      refine List.IsPrefix.trans ?_ (ih h)
      unfold waitFor at hs₁
      split at hs₁
      · cases hs₁
        exact List.prefix_rfl
      · obtain ⟨ns, -, rfl⟩ := (map_eq_ok_iff _ _ _).1 hs₁
        split
        · exact List.prefix_rfl
        · exact s.keys_setNames _

theorem keys_markExported (s : State) (ns : SectionNames (Option Int)) (x : String) :
    s.sections.keys <+: (s.markExported ns x).sections.keys := by
  unfold markExported
  split
  · exact s.keys_setNames _
  · split
    · exact s.keys_setNames _
    · exact List.prefix_rfl

theorem sections_addCommand (s : State) (r : Draft) : (s.addCommand r).sections = s.sections := by
  unfold addCommand
  split <;> rfl

theorem sections_of_noteModified {ops : List Operand} (h : s.noteModified ops = .ok s') :
    s'.sections = s.sections := by
  unfold noteModified at h
  split at h
  · split at h <;> cases h
    rfl
  · cases h
    rfl

theorem keys_of_commandLine {op : Operation} (h : s.commandLine use op l = .ok s') :
    s.sections.keys <+: s'.sections.keys := by
  unfold commandLine at h
  simp only at h
  split at h
  · cases h
  · split at h
    · cases h
    · split at h
      · cases h
      · next s₁ hs₁ =>
        have hsections : s₁.sections = s.sections := by
          rw [sections_of_noteModified hs₁, sections_addCommand]
          rfl
        rw [← hsections]
        exact keys_of_waitForAll (s := (s₁.moveTo _).report _) h

theorem keys_of_endLine (h : s.endLine l = .ok s') : s.sections.keys <+: s'.sections.keys := by
  simp only [endLine] at h
  split at h
  · cases h
  · next s₁ hs₁ =>
    obtain ⟨s₂, hs₂, rfl⟩ := (map_eq_ok_iff _ _ _).1 h
    change _ <+: s₂.sections.keys
    rw [sections_of_writeModifications hs₂]
    change _ <+: s₁.sections.keys
    rw [sections_of_writeLength hs₁]
    exact List.prefix_rfl

theorem keys_of_bodyLine (h : s.bodyLine use stmt l = .ok s') :
    s.sections.keys <+: s'.sections.keys := by
  unfold bodyLine at h
  split at h
  · exact keys_of_endLine h
  · unfold storageLine at h
    split at h
    · cases h
      exact List.prefix_rfl
    · obtain ⟨ps, -, rfl⟩ := (map_eq_ok_iff _ _ _).1 h
      exact List.prefix_rfl
  · unfold exportLine at h
    split at h
    · cases h
      exact List.prefix_rfl
    · obtain ⟨ns, -, rfl⟩ := (map_eq_ok_iff _ _ _).1 h
      exact s.keys_markExported ns _
  · unfold importLine at h
    split at h
    · cases h
      exact List.prefix_rfl
    · obtain ⟨ns, -, rfl⟩ := (map_eq_ok_iff _ _ _).1 h
      exact s.keys_setNames _
  · exact keys_of_commandLine h
  · cases h
    exact List.prefix_rfl

theorem keys_of_sectionLine (h : s.sectionLine l = .ok s') :
    s.sections.keys <+: s'.sections.keys := by
  simp only [sectionLine] at h
  split at h
  · cases h
  · next s₁ hs₁ =>
    obtain ⟨s₂, hs₂, rfl⟩ := (map_eq_ok_iff _ _ _).1 h
    have hmodifications := sections_of_writeModifications hs₁
    have hsections : s₂.sections = s.sections := (sections_of_writeLength hs₂).trans hmodifications
    rw [← hsections]
    exact s₂.sections.keys_prefix_insert _ _

theorem keys_of_line (h : s.line table use l = .ok s') : s.sections.keys <+: s'.sections.keys := by
  unfold line at h
  split at h
  · cases h
    exact OrderedMap.keys_prefix_insert _ _ _
  · rw [← sections_expectStarted]
    exact keys_of_sectionLine h
  · rw [← sections_expectStarted]
    split at h
    · cases h
    · next s₁ hs₁ => exact (keys_of_noteLabel hs₁).trans (keys_of_bodyLine h)

end Sectioned.State

/-! ## What is shown -/

theorem extends_of_front {α : Type} {xs ys : List α} (h : xs <+: ys) : Extends Eq xs ys := by
  obtain ⟨zs, rfl⟩ := h
  exact (Extends.refl (fun _ => rfl) xs).append zs

/-- A pass whose lines leave the keys in front has, once there are symbols, symbols in all
snapshots. -/
theorem Pass.symbols_pairwise {σ κ : Type} {p : Pass σ} (keys : σ → List κ)
    (hstep : ∀ {s n l s'}, p.step s n l = .ok s' → keys s <+: keys s')
    (hclose : ∀ s, keys (p.close s) = keys s)
    (hview : ∀ {s v}, p.view s = .ok v → (v.symbols.isEmpty = true ↔ keys s = [])) (s : σ) (n : Nat)
    (ls : List Line) :
    (p.trace s n ls).snapshots.Pairwise fun v w => w.symbols.isEmpty = true →
      v.symbols.isEmpty = true := by
  have hgrowing : p.Growing (fun _ => True) keys Eq fun _ => True := {
    refl := fun _ => rfl
    trans := Eq.trans
    clean_of_step := fun _ _ => trivial
    step := fun _ _ h _ => ⟨extends_of_front (hstep h), fun _ => trivial⟩
    close := fun _ => ⟨trivial, hclose _⟩ }
  refine (hgrowing.pairwise (fun _ _ => trivial) n ls).imp ?_
  rintro v w ⟨t, u, ht, hu, hleads⟩ hempty
  have hlength := (hleads trivial).2.length_le
  rw [(hview hu).1 hempty] at hlength
  exact (hview ht).2 (List.length_eq_zero_iff.1 (Nat.le_zero.1 hlength))

end OnePass

/-- A snapshot with symbols is followed by snapshots with symbols only. -/
theorem symbols_pairwise (layout : Layout) (table : OpTable) (use : NameUse) (program : List Line) :
    (traceProgram layout table use program).snapshots.Pairwise fun v w => w.symbols.isEmpty = true →
      v.symbols.isEmpty = true := by
  cases layout with
  | absolute =>
    refine OnePass.Pass.symbols_pairwise (fun s => s.names.keys)
      (fun h => (OnePass.Absolute.State.grows_line h).names) (fun _ => rfl) ?_ _ _ _
    rintro s v ⟨⟩
    exact s.names.isEmpty_iff
  | relocatable =>
    refine OnePass.Pass.symbols_pairwise (fun s => s.names.keys)
      (fun h => (OnePass.Relocatable.State.grows_line h).names) (fun _ => rfl) ?_ _ _ _
    intro s v hv
    obtain ⟨rs, -, rfl⟩ := (map_eq_ok_iff _ _ _).1 hv
    exact s.names.isEmpty_iff
  | sectioned =>
    refine OnePass.Pass.symbols_pairwise
      (fun s => s.sections.keys) OnePass.Sectioned.State.keys_of_line (fun _ => rfl) ?_ _ _ _
    intro s v hv
    obtain ⟨rs, -, rfl⟩ := (map_eq_ok_iff _ _ _).1 hv
    exact s.sections.isEmpty_iff

end Assembler
