import Assembler.Assembly
import Assembler.Proofs.RelocatablePass

/-! # Labels given more than once

In one pass over a relocatable program a label at address zero is not taken for known when it is
given again.  So a program with repeated labels is accepted if and only if each label that is given
again stands at address zero and the program is accepted that has each label at the last line with
it alone (`repeated_labels_iff`). -/

namespace Assembler.OnePass.Relocatable
open Assembler
set_option autoImplicit false

variable {table : OpTable} {use : NameUse} {first last l : Line} {body ls later : List Line}
  {a : Int} {known : String → Option Int} {x : String}

/-- The label of a line is given again behind it. -/
def Superseded (l : Line) (later : List Line) : Prop :=
  l.mnemonic ≠ "START" ∧ l.name?.isSome = true ∧ ∃ k ∈ later, k.mnemonic ≠ "START" ∧
    k.name? = l.name?

instance (l : Line) (later : List Line) : Decidable (Superseded l later) :=
  inferInstanceAs (Decidable (_ ∧ _ ∧ _))

/-- The lines `ls` without the labels that are given again, in them or in `later`. -/
def latestLabels (later : List Line) : List Line → List Line
  | [] => []
  | l :: ls =>
    (if Superseded l (ls ++ later) then { l with label := none } else l) :: latestLabels later ls

/-! ## Lines without labels that are given again -/

theorem latestLabels_append (ls ls' : List Line) :
    latestLabels later (ls ++ ls') = latestLabels (ls' ++ later) ls ++ latestLabels later ls' := by
  induction ls with
  | nil => rfl
  | cons l ls ih => simp only [List.cons_append, latestLabels, ih, List.append_assoc]

theorem latestLabels_singleton (l : Line) : latestLabels [] [l] = [l] := by
  simp [latestLabels, Superseded]

theorem latestLabels_cons_of_start (h : l.mnemonic = "START") :
    latestLabels later (l :: ls) = l :: latestLabels later ls := by
  simp [latestLabels, Superseded, h]

theorem latestLabels_map_command (later ls : List Line) :
    (latestLabels later ls).map (·.command) = ls.map (·.command) := by
  induction ls with
  | nil => rfl
  | cons l ls ih =>
    rw [latestLabels, List.map_cons, List.map_cons, ih]
    split <;> rfl

theorem mem_of_mem_latestLabels {k : Line} (hk : k ∈ latestLabels later ls)
    (hname : k.name? = some x) : k ∈ ls := by
  induction ls with
  | nil => cases hk
  | cons l ls ih =>
    rw [latestLabels, List.mem_cons] at hk
    cases hk with
    | inl hk =>
      split at hk
      · rw [hk] at hname
        cases hname
      · exact hk ▸ List.mem_cons_self
    | inr hk => exact List.mem_cons_of_mem _ (ih hk)

theorem forall_split_cons {P : List Line → Line → List Line → Prop} {k : Line} :
    (∀ pre l post, k :: ls = pre ++ l :: post → P pre l post) ↔
      P [] k ls ∧ ∀ pre l post, ls = pre ++ l :: post → P (k :: pre) l post := by
  constructor
  · intro h
    exact ⟨h [] k ls rfl, fun pre l post heq => h (k :: pre) l post (by rw [heq]; rfl)⟩
  · intro ⟨hhead, htail⟩ pre l post heq
    cases pre with
    | nil =>
      obtain ⟨rfl, rfl⟩ := List.cons.inj heq
      exact hhead
    | cons k' pre =>
      obtain ⟨rfl, rfl⟩ := List.cons.inj heq
      exact htail pre l post rfl

theorem not_superseded_latestLabels (later ls : List Line) :
    ∀ pre l post, latestLabels later ls = pre ++ l :: post → ¬ Superseded l (post ++ later) := by
  induction ls with
  | nil => simp [latestLabels]
  | cons l ls ih =>
    rw [latestLabels, forall_split_cons]
    refine ⟨?_, ih⟩
    split
    · simp [Superseded, Line.name?]
    · next hlast =>
      intro ⟨hstart, hname, k, hk, hk', hkname⟩
      obtain ⟨x, hx⟩ := Option.isSome_iff_exists.1 hname
      refine hlast ⟨hstart, hname, k, ?_, hk', hkname⟩
      rw [List.mem_append] at hk ⊢
      exact hk.imp_left fun hk => mem_of_mem_latestLabels hk (hkname.trans hx)

theorem distinct_iff_not_superseded (ls : List Line) :
    ((ls.filter (·.mnemonic ≠ "START")).filterMap Line.name?).Nodup ↔
      ∀ pre l post, ls = pre ++ l :: post → ¬ Superseded l post := by
  induction ls with
  | nil => simp
  | cons l ls ih =>
    rw [forall_split_cons, ← ih]
    by_cases hstart : l.mnemonic = "START"
    · simp [hstart, Superseded]
    · rw [List.filter_cons_of_pos (by simpa using hstart)]
      cases hx : l.name? with
      | none => simp [List.filterMap_cons_none hx, Superseded, hx]
      | some x =>
        have hmem : x ∈ (ls.filter (·.mnemonic ≠ "START")).filterMap Line.name? ↔
            Superseded l ls := by
          simp [Superseded, hstart, hx, and_assoc]
        rw [List.filterMap_cons_some hx, List.nodup_cons, hmem]

theorem upToEnd_latestLabels (program : List Line) :
    upToEnd (latestLabels [] (upToEnd program)) = latestLabels [] (upToEnd program) := by
  induction program with
  | nil => rfl
  | cons l ls ih =>
    rw [upToEnd]
    split
    · next hend => rw [latestLabels_singleton, upToEnd, if_pos hend]
    · next hend =>
      have hmnemonic :
          ∀ c : Prop, [Decidable c] →
            (if c then { l with label := none } else l).mnemonic = l.mnemonic := by
        intro c _
        split <;> rfl
      rw [latestLabels, upToEnd, if_neg (by rwa [hmnemonic]), ih]

/-! ## Where labels may be given again -/

theorem vacant_labelled_iff (hls : ∀ k ∈ l :: ls, k.mnemonic ≠ "START") (hl : Vacant known l) :
    (∀ k ∈ ls, Vacant (labelled known a l) k) ↔ (∀ k ∈ ls, Vacant known k) ∧
      (Superseded l ls → a = 0) := by
  constructor
  · intro h
    refine ⟨fun k hk x b hx hb => ?_, fun hagain => ?_⟩
    · by_cases hlx : l.name? = some x
      · exact hl x b hlx hb
      · exact h k hk x b hx (by rw [labelled, if_neg hlx, hb])
    · obtain ⟨-, hname, k, hk, -, hkname⟩ := hagain
      obtain ⟨x, hx⟩ := Option.isSome_iff_exists.1 hname
      exact h k hk x a (hkname.trans hx) (by rw [labelled, if_pos hx])
  · rintro ⟨hall, hagain⟩ k hk x b hx hb
    rw [labelled] at hb
    split at hb
    · next hlx =>
      rw [← Option.some.inj hb]
      exact hagain ⟨hls l List.mem_cons_self, by rw [hlx]; rfl, k, hk,
        hls k (List.mem_cons_of_mem _ hk), hx.trans hlx.symm⟩
    · exact hall k hk x b hx hb

/-- Labels may be given along some lines if and only if they may be given at the start and those
given again stand at address zero. -/
theorem allAlong_vacant_iff (hls : ∀ l ∈ ls, l.mnemonic ≠ "START") :
    AllAlong .relocatable table (fun _ known l => Vacant known l) a known ls ↔
      (∀ l ∈ ls, Vacant known l) ∧
        ∀ pre l post, ls = pre ++ l :: post → Superseded l post →
        a + extentOf .relocatable table pre = 0 := by
  induction ls generalizing a known with
  | nil => simp [AllAlong]
  | cons l ls ih =>
    rw [AllAlong, ih fun k hk => hls k (List.mem_cons_of_mem _ hk), forall_split_cons,
      List.forall_mem_cons]
    have hsplit : ∀ pre, a + l.extent .relocatable table + extentOf .relocatable table pre =
        a + extentOf .relocatable table (l :: pre) := by
      intro pre
      rw [extentOf]
      omega
    have hhead : a + extentOf .relocatable table [] = a := by rw [extentOf]; omega
    simp only [hsplit, hhead]
    constructor
    · rintro ⟨hl, hrest, hzero⟩
      obtain ⟨hall, hagain⟩ := (vacant_labelled_iff hls hl).1 hrest
      exact ⟨⟨hl, hall⟩, hagain, hzero⟩
    · rintro ⟨⟨hl, hall⟩, hagain, hzero⟩
      exact ⟨hl, (vacant_labelled_iff hls hl).2 ⟨hall, hagain⟩, hzero⟩

/-! ## What the labels do not change -/

/-- What a row is without its label. -/
def unlabelled (p : Row × Int) : Int × Command × Int := (p.1.address, p.1.line.command, p.2)

theorem placed_latestLabels (later : List Line) (a : Int) (ls : List Line) :
    (placed .relocatable table none a (latestLabels later ls)).map unlabelled =
      (placed .relocatable table none a ls).map unlabelled := by
  induction ls generalizing a with
  | nil => rfl
  | cons l ls ih =>
    rw [latestLabels]
    split <;> exact congrArg (List.cons _) (ih _)

theorem extentOf_latestLabels (later ls : List Line) :
    extentOf .relocatable table (latestLabels later ls) = extentOf .relocatable table ls := by
  induction ls with
  | nil => rfl
  | cons l ls ih =>
    rw [latestLabels, extentOf, extentOf, ih]
    split <;> rfl

theorem closed_latestLabels {ρ : String → Option Int} :
    Closed ρ (placed .relocatable table none a (latestLabels later ls)) ↔
      Closed ρ (placed .relocatable table none a ls) := by
  have hview :
      ∀ ps, Closed ρ ps ↔ ∀ t ∈ ps.map unlabelled, ∀ y, referenceOf t.2.1.operands = some y →
        (ρ y).isSome = true := by
    intro ps
    rw [List.forall_mem_map]
    rfl
  rw [hview, hview, placed_latestLabels]

theorem addresses_latestLabels (later : List Line) (a : Int) (ls : List Line) :
    (placed .relocatable table none a (latestLabels later ls)).map (fun p => p.1.address + p.2) =
      (placed .relocatable table none a ls).map fun p => p.1.address + p.2 := by
  have hview :
      ∀ ps : List (Row × Int),
        ps.map (fun p => p.1.address + p.2) = (ps.map unlabelled).map fun t => t.1 + t.2.2 := by
    intro ps
    rw [List.map_map]
    rfl
  rw [hview, hview, placed_latestLabels]

theorem addressOf_latestLabels (hx : ∀ k ∈ later, k.name? ≠ some x) (a : Int) (ls : List Line) :
    addressOf ((placed .relocatable table none a (latestLabels later ls)).map (·.1)) x =
      addressOf ((placed .relocatable table none a ls).map (·.1)) x := by
  induction ls generalizing a with
  | nil => rfl
  | cons l ls ih =>
    rw [latestLabels]
    split
    · next hagain =>
      obtain ⟨-, -, k, hk, -, hkname⟩ := hagain
      have hdropped : ({ l with label := none } : Line).name? ≠ some x := nofun
      rw [placed, placed, List.map_cons, List.map_cons, addressOf, addressOf, if_neg hdropped,
        Option.or_none]
      by_cases hlx : l.name? = some x
      · have hk : k ∈ ls :=
          (List.mem_append.1 hk).resolve_right fun hk => hx k hk (hkname.trans hlx)
        have hsome :
            addressOf ((placed .relocatable table none (a + l.extent .relocatable table) ls).map
              (·.1)) x ≠ none := by
          rw [ne_eq, addressOf_eq_none_iff]
          intro hnone
          rw [← placed_map_line .relocatable table none (a + l.extent .relocatable table) ls,
            List.mem_map] at hk
          obtain ⟨p, hp, rfl⟩ := hk
          exact hnone p.1 (List.mem_map_of_mem hp) (hkname.trans hlx)
        obtain ⟨b, hb⟩ := Option.ne_none_iff_exists'.1 hsome
        exact (ih (a + l.extent .relocatable table)).trans (by rw [hb, Option.some_or])
      · exact (ih (a + l.extent .relocatable table)).trans (by rw [if_neg hlx, Option.or_none])
    · simp only [placed, List.map_cons, addressOf, ih]

theorem flatLabels_latestLabels :
    flatLabels .relocatable table first (latestLabels [last] body) last =
    flatLabels .relocatable table first body last := by
  funext x
  unfold flatLabels labelled
  split
  · rw [flatEnd, flatEnd, extentOf_latestLabels]
  · next hx => exact addressOf_latestLabels (by simpa using hx) _ _

/-! ## Programs -/

/-- What is asked of a line besides its label being new. -/
def Sited (table : OpTable) (use : NameUse) (a : Int) (l : Line) : Prop :=
  l.LabelFits a ∧ l.Fits .relocatable table use a ∧ l.Legible .relocatable table

theorem allAlong_placeable_iff : AllAlong .relocatable table (Placeable table use) a known ls ↔
    AllAlong .relocatable table (fun _ known l => Vacant known l) a known ls ∧
      AllAlong .relocatable table (fun a _ l => Sited table use a l) a known ls := by
  rw [← allAlong_and_iff]
  constructor
  · exact AllAlong.imp fun a known l h => ⟨h.vacant, h.label, h.fits, h.legible⟩
  · exact AllAlong.imp fun a known l h => ⟨h.1, h.2.1, h.2.2.1, h.2.2.2⟩

theorem allAlong_sited_iff {known' : String → Option Int}
    (hzero : ∀ pre l post, ls ++ later = pre ++ l :: post →
      Superseded l post → a + extentOf .relocatable table pre = 0) :
    AllAlong .relocatable table (fun a _ l => Sited table use a l) a known'
      (latestLabels later ls) ↔
      AllAlong .relocatable table (fun a _ l => Sited table use a l) a known ls := by
  induction ls generalizing a known known' with
  | nil => rfl
  | cons l ls ih =>
    rw [List.cons_append, forall_split_cons] at hzero
    have hrest : ∀ pre k post, ls ++ later = pre ++ k :: post → Superseded k post →
        a + l.extent .relocatable table + extentOf .relocatable table pre = 0 := by
      intro pre k post hcut hk
      have hpre := hzero.2 pre k post hcut hk
      rw [extentOf] at hpre
      omega
    rw [latestLabels]
    split
    · next hagain =>
      have hfits : l.LabelFits a := by
        intro _
        have ha := hzero.1 hagain
        rw [extentOf] at ha
        have ha : a = 0 := by omega
        rw [ha]
        exact ⟨by decide, by decide⟩
      have hhead : Sited table use a { l with label := none } ↔ Sited table use a l :=
        ⟨fun h => ⟨hfits, h.2⟩, fun h => ⟨by rintro ⟨⟩, h.2⟩⟩
      exact and_congr hhead (ih hrest)
    · exact and_congr Iff.rfl (ih hrest)

theorem allAlong_concat {P : Int → (String → Option Int) → Line → Prop} (rs : List Row) :
    AllAlong .relocatable table P a (addressOf rs) (ls ++ [l]) ↔
      AllAlong .relocatable table P a (addressOf rs) ls ∧
      P (a + extentOf .relocatable table ls)
        (addressOf (rs ++ (placed .relocatable table none a ls).map (·.1))) l := by
  induction ls generalizing a rs with
  | nil => simp [AllAlong, extentOf, placed]
  | cons k ls ih =>
    have hknown : labelled (addressOf rs) a k = addressOf (rs ++ [⟨a, k, none⟩]) :=
      (addressOf_concat rs ⟨a, k, none⟩).symm
    have hextent : a + k.extent .relocatable table + extentOf .relocatable table ls =
        a + extentOf .relocatable table (k :: ls) := by
      rw [extentOf]
      omega
    rw [List.cons_append, AllAlong, AllAlong, hknown, ih, hextent, List.append_assoc, and_assoc]
    rfl

theorem not_start_latestLabels (h : ∀ l ∈ ls, l.mnemonic ≠ "START") :
    ∀ l ∈ latestLabels later ls, l.mnemonic ≠ "START" := by
  have hcommands : ∀ c ∈ (latestLabels later ls).map (·.command), c.mnemonic ≠ "START" := by
    rw [latestLabels_map_command, List.forall_mem_map]
    exact h
  rw [List.forall_mem_map] at hcommands
  exact hcommands

theorem vacant_body_iff :
    AllAlong .relocatable table (fun _ known l => Vacant known l) a (fun _ => none)
      (body ++ [last]) ↔
    AllAlong .relocatable table (fun _ known l => Vacant known l) a (fun _ => none) body ∧
      Vacant (addressOf ((placed .relocatable table none a body).map (·.1))) last :=
  allAlong_concat []

theorem latestLabels_body (body : List Line) (last : Line) :
    latestLabels [] (body ++ [last]) = latestLabels [last] body ++ [last] := by
  rw [latestLabels_append, latestLabels_singleton]
  rfl

theorem vacant_latestLabels (hls : ∀ l ∈ ls, l.mnemonic ≠ "START") :
    AllAlong .relocatable table (fun _ known l => Vacant known l) a (fun _ => none)
      (latestLabels [] ls) := by
  refine (allAlong_vacant_iff (not_start_latestLabels hls)).2
    ⟨fun l _ x b _ => nofun, fun pre l post hcut hagain => ?_⟩
  exact absurd hagain (by simpa using not_superseded_latestLabels [] ls pre l post hcut)

theorem acceptable_iff_latestLabels (hbody : ∀ l ∈ body, l.mnemonic ≠ "START")
    (hlast : last.mnemonic ≠ "START") :
    Acceptable table use first body last ↔
      Acceptable table use first (latestLabels [last] body) last ∧
      ∀ pre l post, body ++ [last] = pre ++ l :: post → Superseded l post →
        Layout.relocatable.load first + extentOf .relocatable table pre = 0 := by
  have hls : ∀ l ∈ body ++ [last], l.mnemonic ≠ "START" := by
    rw [List.forall_mem_append]
    exact ⟨hbody, by simpa using hlast⟩
  have hvacant :
      AllAlong .relocatable table (fun _ known l => Vacant known l) (Layout.relocatable.load first)
        (fun _ => none) (latestLabels [last] body ++ [last]) :=
        latestLabels_body body last ▸ vacant_latestLabels hls
  have hend :
      flatEnd .relocatable table first (latestLabels [last] body) =
        flatEnd .relocatable table first body := by
    rw [flatEnd, flatEnd, extentOf_latestLabels]
  have haddresses : flatAddresses .relocatable table first (latestLabels [last] body) =
      flatAddresses .relocatable table first body :=
        congrArg (List.cons _) (addresses_latestLabels [last] _ body)
  constructor
  · intro h
    obtain ⟨hgiven, hsited⟩ := allAlong_placeable_iff.1 h.body_fits
    have hzero := ((allAlong_vacant_iff hls).1 (vacant_body_iff.2 ⟨hgiven, h.finish_label⟩)).2
    refine ⟨{ h with
      body_fits :=
        allAlong_placeable_iff.2 ⟨(vacant_body_iff.1 hvacant).1,
          (allAlong_sited_iff hzero).2 hsited⟩
      finish_label := (vacant_body_iff.1 hvacant).2
      finish_inMemory := hend ▸ h.finish_inMemory
      closed := ?_
      entry := haddresses ▸ h.entry }, hzero⟩
    rw [flatLabels_latestLabels]
    exact closed_latestLabels.2 h.closed
  · rintro ⟨h, hzero⟩
    have hsited := (allAlong_placeable_iff.1 h.body_fits).2
    have hgiven := vacant_body_iff.1 ((allAlong_vacant_iff hls).2 ⟨by rintro l - x b - ⟨⟩, hzero⟩)
    have hclosed := h.closed
    rw [flatLabels_latestLabels] at hclosed
    exact { h with
      body_fits := allAlong_placeable_iff.2 ⟨hgiven.1, (allAlong_sited_iff hzero).1 hsited⟩
      finish_label := hgiven.2
      finish_inMemory := hend ▸ h.finish_inMemory
      closed := closed_latestLabels.1 hclosed
      entry := haddresses ▸ h.entry }

theorem upToEnd_of_frame (hfirst : first.mnemonic = "START")
    (hbody : ∀ l ∈ body, l.mnemonic ≠ "START" ∧ l.mnemonic ≠ "END") (hlast : last.mnemonic = "END")
    (rest : List Line) :
    upToEnd (first :: (body ++ last :: rest)) = first :: (body ++ [last]) := by
  rw [upToEnd, if_neg (by simp [hfirst]), upToEnd_append (fun l hl => (hbody l hl).2) hlast]

theorem latestLabels_of_frame (hfirst : first.mnemonic = "START") :
    latestLabels [] (first :: (body ++ [last])) =
      first :: (latestLabels [last] body ++ [last]) := by
  rw [latestLabels_cons_of_start hfirst, latestLabels_body]

theorem of_upToEnd_eq {pre post : List Line} (h : upToEnd ls = pre ++ l :: post)
    (hl : l.mnemonic = "END") :
    post = [] ∧ ∃ rest, ls = pre ++ l :: rest := by
  induction ls generalizing pre with
  | nil => simp [upToEnd] at h
  | cons k ls ih =>
    rw [upToEnd] at h
    split at h
    · obtain ⟨rfl, hrest⟩ | ⟨pre', -, hrest⟩ := List.cons_eq_append_iff.1 h
      · obtain ⟨rfl, rfl⟩ := List.cons.inj hrest
        exact ⟨rfl, ls, rfl⟩
      · simp at hrest
    · next hk =>
      obtain ⟨rfl, hrest⟩ | ⟨pre', rfl, hrest⟩ := List.cons_eq_append_iff.1 h
      · obtain ⟨rfl, rfl⟩ := List.cons.inj hrest
        exact absurd hl hk
      · obtain ⟨rfl, rest, rfl⟩ := ih hrest
        exact ⟨rfl, rest, rfl⟩

theorem exists_frame {program body' rest' : List Line} {first' last' : Line}
    (h : latestLabels [] (upToEnd program) = first' :: (body' ++ last' :: rest'))
    (hfirst : first'.mnemonic = "START")
    (hbody : ∀ l ∈ body', l.mnemonic ≠ "START" ∧ l.mnemonic ≠ "END")
    (hlast : last'.mnemonic = "END") :
    ∃ body rest, program = first' :: (body ++ last' :: rest) ∧ body' = latestLabels [last'] body ∧
      ∀ l ∈ body, l.mnemonic ≠ "START" ∧ l.mnemonic ≠ "END" := by
  have hcommands := latestLabels_map_command [] (upToEnd program)
  rw [h, List.map_cons, List.map_append, List.map_cons] at hcommands
  obtain ⟨first, lines, hcut, hf, hlines⟩ := List.map_eq_cons_iff.1 hcommands.symm
  obtain ⟨body, tail, rfl, hb, htail⟩ := List.map_eq_append_iff.1 hlines
  obtain ⟨last, post, rfl, ht, -⟩ := List.map_eq_cons_iff.1 htail
  have hfirst₀ : first.mnemonic = "START" := (congrArg Command.mnemonic hf).trans hfirst
  have hlast₀ : last.mnemonic = "END" := (congrArg Command.mnemonic ht).trans hlast
  have hcut : upToEnd program = (first :: body) ++ last :: post := hcut
  obtain ⟨rfl, rest, rfl⟩ := of_upToEnd_eq hcut hlast₀
  rw [hcut, List.cons_append, latestLabels_of_frame hfirst₀] at h
  obtain ⟨rfl, hbodies⟩ := List.cons.inj h
  have hlength : (latestLabels [last] body).length = body'.length := by
    have hkept := congrArg List.length (latestLabels_map_command [last] body)
    have hsame := congrArg List.length hb
    simp only [List.length_map] at hkept hsame
    rw [hkept, hsame]
  obtain ⟨rfl, htails⟩ := List.append_inj hbodies hlength
  obtain ⟨rfl, -⟩ := List.cons.inj htails
  refine ⟨body, rest, rfl, rfl, ?_⟩
  have hmnemonics : ∀ c ∈ body.map (·.command), c.mnemonic ≠ "START" ∧ c.mnemonic ≠ "END" := by
    rw [hb, List.forall_mem_map]
    exact hbody
  rw [List.forall_mem_map] at hmnemonics
  exact hmnemonics

theorem accepted_iff (ht : table.Sized .relocatable) (program : List Line) :
    (∃ v, (trace table use program).AcceptedWith v) ↔
      ∃ first body last rest, program = first :: (body ++ last :: rest) ∧
      Acceptable table use first body last := by
  constructor
  · intro ⟨v, hfault, hlast, hfound⟩
    obtain ⟨rs, hrs⟩ := records_of_found hfault hlast hfound
    obtain ⟨first, body, last, rest, hprogram, h, -⟩ := acceptable_of_trace ht hfault hlast hrs
    exact ⟨first, body, last, rest, hprogram, h⟩
  · intro ⟨first, body, last, rest, hprogram, h⟩
    exact hprogram ▸ trace_of_acceptable ht rest h

theorem superseded_of_frame (hfirst : first.mnemonic = "START")
    (hload : Layout.relocatable.load first = 0) :
    (∀ pre l post, first :: (body ++ [last]) = pre ++ l :: post → Superseded l post →
      extentOf .relocatable table pre = 0) ↔
      ∀ pre l post, body ++ [last] = pre ++ l :: post → Superseded l post →
        Layout.relocatable.load first + extentOf .relocatable table pre = 0 := by
  have hextent : ∀ pre, extentOf .relocatable table (first :: pre) =
      Layout.relocatable.load first + extentOf .relocatable table pre := by
    intro pre
    rw [hload, extentOf, Line.extent, (Statement.ofMnemonic_eq_start_iff _ _ _).2 hfirst]
  rw [forall_split_cons]
  simp only [hextent, Superseded, hfirst, ne_eq, not_true_eq_false, false_and, false_implies,
    true_and]

theorem Acceptable.load_eq_zero (h : Acceptable table use first body last) :
    Layout.relocatable.load first = 0 := by
  by_contra hne
  simpa [Layout.loadProblems, hne] using h.load_layout

theorem accepted_iff_latestLabels (ht : table.Sized .relocatable) (program : List Line) :
    (∃ v, (trace table use program).AcceptedWith v) ↔
      (∃ v, (trace table use (latestLabels [] (upToEnd program))).AcceptedWith v) ∧
        ∀ pre l post, upToEnd program = pre ++ l :: post → Superseded l post →
        extentOf .relocatable table pre = 0 := by
  rw [accepted_iff ht, accepted_iff ht]
  constructor
  · intro ⟨first, body, last, rest, hprogram, h⟩
    have hbody := fun l hl => (h.not_frame l hl).1
    obtain ⟨hlatest, hagain⟩ := (acceptable_iff_latestLabels hbody (by simp [h.finish])).1 h
    rw [hprogram, upToEnd_of_frame h.start h.not_frame h.finish,
      superseded_of_frame h.start h.load_eq_zero, latestLabels_of_frame h.start]
    exact ⟨⟨first, _, last, [], rfl, hlatest⟩, hagain⟩
  · intro ⟨⟨first, body', last, rest', hcut, h⟩, hagain⟩
    obtain ⟨body, rest, rfl, rfl, hbody⟩ := exists_frame hcut h.start h.not_frame h.finish
    rw [upToEnd_of_frame h.start hbody h.finish, superseded_of_frame h.start h.load_eq_zero]
      at hagain
    refine ⟨first, body, last, rest, rfl, ?_⟩
    exact (acceptable_iff_latestLabels (fun l hl => (hbody l hl).1) (by simp [h.finish])).2
      ⟨h, hagain⟩

theorem symbols_latestLabels (ht : table.Sized .relocatable) {program : List Line} {v v' : Snapshot}
    (hv : (trace table use program).AcceptedWith v)
    (hv' : (trace table use (latestLabels [] (upToEnd program))).AcceptedWith v') :
    ∃ names names', v.symbols = .flat names ∧ v'.symbols = .flat names' ∧
      ∀ x, names.get? x = names'.get? x := by
  obtain ⟨hfault, hlast, hfound⟩ := hv
  obtain ⟨hfault', hlast', hfound'⟩ := hv'
  obtain ⟨rs, hrs⟩ := records_of_found hfault hlast hfound
  obtain ⟨rs', hrs'⟩ := records_of_found hfault' hlast' hfound'
  obtain ⟨first, body, last, rest, hprogram, h, -, names, hnames, hget⟩ :=
    acceptable_of_trace ht hfault hlast hrs
  obtain ⟨first', body', last', rest', hcut, h', -, names', hnames', hget'⟩ :=
    acceptable_of_trace ht hfault' hlast' hrs'
  obtain ⟨body₀, rest₀, hprogram', rfl, hbody₀⟩ := exists_frame hcut h'.start h'.not_frame h'.finish
  have hlines := upToEnd_of_frame h.start h.not_frame h.finish rest
  rw [← hprogram, hprogram', upToEnd_of_frame h'.start hbody₀ h'.finish] at hlines
  obtain ⟨rfl, hbodies⟩ := List.cons.inj hlines
  obtain ⟨rfl, hlasts⟩ := List.append_inj' hbodies rfl
  obtain ⟨rfl, -⟩ := List.cons.inj hlasts
  refine ⟨names, names', hnames, hnames', fun x => ?_⟩
  rw [hget, hget', flatLabels_latestLabels]

/-- A label given again has to stand at address zero, and then it is as if it had not been given
before: the program is accepted if and only if the program with the last of the lines with each
label alone is, and the symbols are the same.  The labels of a program are distinct if and only if
none is given again. -/
theorem repeated_labels_iff (table : OpTable) (ht : table.Sized .relocatable) (i : Int)
    (program : List Line) :
    ((∃ v, (traceProgram .relocatable table (.ofIndex i) program).AcceptedWith v) ↔
      (∃ v, (traceProgram .relocatable table (.ofIndex i)
        (latestLabels [] (upToEnd program))).AcceptedWith v) ∧
        ∀ pre l post, upToEnd program = pre ++ l :: post → Superseded l post →
        extentOf .relocatable table pre = 0) ∧
    (∀ v v', (traceProgram .relocatable table (.ofIndex i) program).AcceptedWith v →
      (traceProgram .relocatable table (.ofIndex i)
        (latestLabels [] (upToEnd program))).AcceptedWith v' →
      ∃ names names', v.symbols = .flat names ∧ v'.symbols = .flat names' ∧
      ∀ x, names.get? x = names'.get? x) ∧
    DistinctLabels (latestLabels [] (upToEnd program)) ∧
    (DistinctLabels program ↔ ∀ pre l post, upToEnd program = pre ++ l :: post →
      ¬ Superseded l post) := by
  refine ⟨accepted_iff_latestLabels ht program, fun v v' hv hv' => symbols_latestLabels ht hv hv',
    ?_, distinct_iff_not_superseded _⟩
  rw [DistinctLabels, upToEnd_latestLabels, distinct_iff_not_superseded]
  intro pre l post hcut
  simpa using not_superseded_latestLabels [] (upToEnd program) pre l post hcut

/-- A label at address zero and again at the end. -/
def labelTwice : List Line :=
  [⟨some "P", ⟨"START", []⟩⟩, ⟨some "X", ⟨"NOP", []⟩⟩, ⟨some "X", ⟨"END", []⟩⟩]

/-- It is accepted, although its labels are not distinct. -/
theorem labelTwice_accepted :
    (OpTable.ofTriples [("NOP", 1, 1)]).Sized .relocatable ∧
      (∃ v, (traceProgram .relocatable (.ofTriples [("NOP", 1, 1)])
        (.ofIndex 2) labelTwice).AcceptedWith v) ∧
      ¬ DistinctLabels labelTwice := by
  have ht : (OpTable.ofTriples [("NOP", 1, 1)]).Sized .relocatable :=
    OpTable.sized_of_forall (by decide +kernel)
  obtain ⟨haccepted, -, -, hdistinct⟩ := repeated_labels_iff _ ht 2 labelTwice
  have hagain : Superseded ⟨some "X", ⟨"NOP", []⟩⟩ [⟨some "X", ⟨"END", []⟩⟩] := by decide +kernel
  refine ⟨ht, haccepted.2 ⟨⟨_, rfl, rfl, rfl⟩, ?_⟩,
    fun h => hdistinct.1 h [⟨some "P", ⟨"START", []⟩⟩] _ _ rfl hagain⟩
  have hlines : upToEnd labelTwice = labelTwice := rfl
  rw [hlines, labelTwice, forall_split_cons, forall_split_cons, forall_split_cons]
  refine ⟨by decide +kernel, by decide +kernel, by decide +kernel, fun pre l post hcut => ?_⟩
  simp at hcut

end Assembler.OnePass.Relocatable
