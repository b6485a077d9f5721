import Assembler.Proofs.Drafts
import Assembler.Proofs.Runs

/-! # Records grow at their ends

One pass shows its records anew after every line.  What was shown of a record stays: a header gets
its length, a command the digits of its open name, an exported name its address, each behind what
was there, and new records come behind the old ones.  `Extends` says this of two lists,
`Pass.Growing` what a line has to leave of the records or drafts of a state, and
`Pass.Growing.pairwise` carries it over to any two snapshots of a trace.  A draft is changed only
where a name in it was open, and such a draft is printed without any digits of it
(`Draft.Grown.record`). -/

namespace Assembler
set_option autoImplicit false

/-- What may become of a record that has been shown. -/
inductive ObjectRecord.Grown : ObjectRecord → ObjectRecord → Prop
  | same (r : ObjectRecord) : Grown r r
  | length (label : Option String) (a n : Int) :
      Grown (.header label a none) (.header label a (some n))
  | field (a n b : Int) (f g : String) : Grown (.code a n b f) (.code a n b (f ++ g))
  | digits (name ds es : String) : Grown (.definition name ds) (.definition name (ds ++ es))

namespace ObjectRecord.Grown

theorem trans {r r' r'' : ObjectRecord} (h : r.Grown r') (h' : r'.Grown r'') : r.Grown r'' := by
  cases h with
  | same => exact h'
  | length label a n =>
    cases h'
    exact .length label a n
  | field a n b f g =>
    cases h' with
    | same => exact .field a n b f g
    | field _ _ _ _ g' =>
      rw [String.append_assoc]
      exact .field a n b f (g ++ g')
  | digits name ds es =>
    cases h' with
    | same => exact .digits name ds es
    | digits _ _ es' =>
      rw [String.append_assoc]
      exact .digits name ds (es ++ es')

/-- In every style a record is printed in front of what becomes of it. -/
theorem text_prefix_text {r r' : ObjectRecord} (h : r.Grown r') (style : RecordStyle) :
    (r.text style).toList <+: (r'.text style).toList := by
  cases h with
  | same => exact List.prefix_rfl
  | length label a n =>
    simp only [text, String.toList_append, List.append_assoc, List.prefix_append_right_inj]
    cases style.headerGap
    · exact List.nil_prefix
    · exact List.prefix_append _ _
  | field a n b f g =>
    simp only [text, String.toList_append, List.append_assoc, List.prefix_append_right_inj]
    exact List.prefix_append _ _
  | digits name ds es =>
    simp only [text, String.toList_append, List.append_assoc, List.prefix_append_right_inj]
    exact List.prefix_append _ _

end ObjectRecord.Grown

namespace OnePass

/-! ## Lists that are extended -/

/-- The items of one list have become the first items of another. -/
structure Extends {α : Type} (R : α → α → Prop) (xs ys : List α) : Prop where
  length_le : xs.length ≤ ys.length
  kept : ∀ {i : Nat} {x y : α}, xs[i]? = some x → ys[i]? = some y → R x y

section

variable {α : Type} {R : α → α → Prop} {xs ys zs : List α}

theorem Extends.refl (hrefl : ∀ x, R x x) (xs : List α) : Extends R xs xs := by
  refine ⟨le_rfl, fun hx hy => ?_⟩
  rw [hx, Option.some.injEq] at hy
  exact hy ▸ hrefl _

theorem Extends.trans (htrans : ∀ {x y z}, R x y → R y z → R x z) (h : Extends R xs ys)
    (h' : Extends R ys zs) :
    Extends R xs zs := by
  refine ⟨h.length_le.trans h'.length_le, fun {i x z} hx hz => ?_⟩
  have hi : i < ys.length := (List.getElem?_eq_some_iff.1 hx).1.trans_le h.length_le
  have hy : ys[i]? = some ys[i] := List.getElem?_eq_getElem hi
  exact htrans (h.kept hx hy) (h'.kept hy hz)

theorem Extends.append (h : Extends R xs ys) (zs : List α) : Extends R xs (ys ++ zs) := by
  refine ⟨h.length_le.trans (by simp), fun {i x y} hx hy => h.kept hx ?_⟩
  have hi : i < ys.length := (List.getElem?_eq_some_iff.1 hx).1.trans_le h.length_le
  rwa [List.getElem?_append_left hi] at hy

theorem Extends.mono {R' : α → α → Prop} (h : Extends R xs ys) (hR : ∀ {x y}, R x y → R' x y) :
    Extends R' xs ys :=
  ⟨h.length_le, fun hx hy => hR (h.kept hx hy)⟩

theorem extends_map {f : α → α} (hf : ∀ x ∈ xs, R x (f x)) : Extends R xs (xs.map f) := by
  refine ⟨by simp, fun hx hy => ?_⟩
  rw [List.getElem?_map, hx, Option.map_some, Option.some.injEq] at hy
  exact hy ▸ hf _ (List.mem_of_getElem? hx)

theorem extends_set (hrefl : ∀ x, R x x) {i : Nat} {x y : α} (hx : xs[i]? = some x) (hxy : R x y) :
    Extends R xs (xs.set i y) := by
  refine ⟨by simp, fun {j x' y'} hx' hy' => ?_⟩
  rw [List.getElem?_set] at hy'
  split at hy'
  · next hij =>
    subst hij
    rw [hx, Option.some.injEq] at hx'
    split at hy' <;> cases hy'
    exact hx' ▸ hxy
  · rw [hx', Option.some.injEq] at hy'
    exact hy' ▸ hrefl _

/-- Changing records at places extends the list, if each change does, and keeps what each change
keeps. -/
theorem extends_changeAll {P : α → Prop} {f : α → Except Fault α} (hrefl : ∀ x, R x x)
    (htrans : ∀ {x y z}, R x y → R y z → R x z) (hf : ∀ x y, P x → f x = .ok y → R x y ∧ P y)
    {places : List (Option Nat)} (hP : ∀ x ∈ xs, P x) (h : changeAll f places xs = .ok ys) :
    Extends R xs ys ∧ ∀ y ∈ ys, P y := by
  induction places generalizing xs with
  | nil =>
    cases h
    exact ⟨.refl hrefl _, hP⟩
  | cons place places ih =>
    rw [changeAll] at h
    unfold changeAt at h
    cases hx : xs[place.getD (xs.length - 1)]? with
    | none => simp [hx] at h
    | some x =>
      cases hy : f x with
      | error e => simp [hx, hy] at h
      | ok y =>
        simp only [hx, hy, map_ok] at h
        have hone := hf x y (hP x (List.mem_of_getElem? hx)) hy
        have hrest :=
          ih (fun z hz => (List.mem_or_eq_of_mem_set hz).elim (hP z) fun e => e ▸ hone.2) h
        exact ⟨(extends_set hrefl hx hone.1).trans htrans hrest.1, hrest.2⟩

end

/-! ## Traces that grow -/

section

variable {σ α : Type} {p : Pass σ} {clean : σ → Prop} {items : σ → List α} {R : α → α → Prop}
  {Inv : σ → Prop}

/-- What a pass does to the items of its states as long as nothing is found wrong; until the end
directive it may rely on an invariant. -/
structure Pass.Growing (p : Pass σ) (clean : σ → Prop) (items : σ → List α) (R : α → α → Prop)
    (Inv : σ → Prop) : Prop where
  refl : ∀ x, R x x
  trans : ∀ {x y z}, R x y → R y z → R x z
  clean_of_step : ∀ {s n l s'}, p.step s n l = .ok s' → clean s' → clean s
  step : ∀ {s n l s'}, Inv s → p.ended s = false → p.step s n l = .ok s' → clean s' →
    Extends R (items s) (items s') ∧ (p.ended s' = false → Inv s')
  close : ∀ {s}, clean (p.close s) → clean s ∧ items (p.close s) = items s

/-- If nothing is found wrong up to a later state, then nothing was before, and its items extend
those of the earlier one. -/
def Leads (clean : σ → Prop) (items : σ → List α) (R : α → α → Prop) (s t : σ) : Prop :=
  clean t → clean s ∧ Extends R (items s) (items t)

theorem Pass.Growing.leads_step (h : p.Growing clean items R Inv) {s s' : σ} {n : Nat} {l : Line}
    (hs : clean s → p.ended s = false → Inv s) (he : p.ended s = false)
    (hstep : p.step s n l = .ok s') :
    Leads clean items R s s' ∧ (clean s' → p.ended s' = false → Inv s') :=
  ⟨fun hc => ⟨h.clean_of_step hstep hc, (h.step (hs (h.clean_of_step hstep hc) he) he hstep hc).1⟩,
    fun hc => (h.step (hs (h.clean_of_step hstep hc) he) he hstep hc).2⟩

theorem Pass.Growing.leads_close (h : p.Growing clean items R Inv) (s : σ) :
    Leads clean items R s (p.close s) := by
  intro hc
  obtain ⟨hs, hitems⟩ := h.close hc
  rw [hitems]
  exact ⟨hs, .refl h.refl _⟩

theorem Pass.Growing.leads_trans (h : p.Growing clean items R Inv) {s t u : σ}
    (hst : Leads clean items R s t) (htu : Leads clean items R t u) : Leads clean items R s u :=
  fun hu => ⟨(hst (htu hu).1).1, (hst (htu hu).1).2.trans h.trans (htu hu).2⟩

theorem Pass.Growing.leads_of_mem (h : p.Growing clean items R Inv) {s : σ} {n : Nat}
    {ls : List Line} {w : Snapshot} (hs : clean s → p.ended s = false → Inv s)
    (hw : w ∈ (p.trace s n ls).snapshots) :
    ∃ t, p.view t = .ok w ∧ Leads clean items R s t := by
  have hclose : ∀ s : σ, w ∈ (Trace.cons (p.view (p.close s)) .nothing).snapshots →
      ∃ t, p.view t = .ok w ∧ Leads clean items R s t := by
    intro s hw
    rcases mem_snapshots_cons hw with hw | hw
    · exact ⟨p.close s, hw, h.leads_close s⟩
    · cases hw
  induction ls generalizing s n with
  | nil => exact hclose s hw
  | cons l ls ih =>
    rw [Pass.trace] at hw
    split at hw
    · exact hclose s hw
    · next he =>
      cases hstep : p.step s n l with
      | error x =>
        rw [hstep] at hw
        cases hw
      | ok s' =>
        obtain ⟨hlead, hs'⟩ := h.leads_step hs (by simpa using he) hstep
        have hrest : w ∈ (p.trace s' (n + 1) ls).snapshots → ∃ t, p.view t = .ok w ∧
            Leads clean items R s t := by
          intro hw
          obtain ⟨t, ht, hst⟩ := ih hs' hw
          exact ⟨t, ht, h.leads_trans hlead hst⟩
        simp only [hstep] at hw
        split at hw
        · rcases mem_snapshots_cons hw with hw | hw
          · exact ⟨s', hw, hlead⟩
          · exact hrest hw
        · exact hrest hw

/-- Of any two snapshots of a trace the earlier one is of a state that leads to the state of the
later one. -/
theorem Pass.Growing.pairwise (h : p.Growing clean items R Inv) {s : σ}
    (hs : clean s → p.ended s = false → Inv s) (n : Nat) (ls : List Line) :
    (p.trace s n ls).snapshots.Pairwise fun v w =>
      ∃ s t, p.view s = .ok v ∧ p.view t = .ok w ∧ Leads clean items R s t := by
  have hlast :
      ∀ shown : Except Fault Snapshot, (Trace.cons shown .nothing).snapshots.Pairwise fun v w =>
      ∃ s t, p.view s = .ok v ∧ p.view t = .ok w ∧ Leads clean items R s t := by
    intro shown
    cases shown with
    | error x => exact .nil
    | ok v => exact List.pairwise_singleton _ v
  induction ls generalizing s n with
  | nil => exact hlast _
  | cons l ls ih =>
    rw [Pass.trace]
    split
    · exact hlast _
    · next he =>
      cases hstep : p.step s n l with
      | error x => exact .nil
      | ok s' =>
        have hs' := (h.leads_step hs (by simpa using he) hstep).2
        simp only
        split
        · cases hv : p.view s' with
          | error x => exact .nil
          | ok v =>
            refine List.pairwise_cons.2 ⟨fun w hw => ?_, ih hs' (n + 1)⟩
            obtain ⟨t, ht, hlead⟩ := h.leads_of_mem hs' hw
            exact ⟨s', t, hv, ht, hlead⟩
        · exact ih hs' (n + 1)

end

/-! ## Drafts -/

/-- The reading in which no name has a value. -/
def noNames : Reading := ⟨fun _ => none, fun _ => none⟩

/-- A number, or an operand that has no value until its name does. -/
def IsSettled (op : Operand) : Prop := (∃ v, op = .number v) ∨ op.value? noNames = none

theorem value_of_noNames {op : Operand} {v : Int} (h : op.value? noNames = some v) (scope : Scope) :
    op.value scope = .ok (.number v) := by
  by_cases hs : op.isString = true
  · rw [Operand.value?_of_isString _ hs] at h
    rw [Operand.value_of_isString _ hs]
    cases hv : op.stringValue with
    | error x => simp [hv, Except.toOption] at h
    | ok w => simpa [hv, Except.toOption] using h
  · cases op with
    | number w => cases h; rfl
    | register i => cases h; rfl
    | direct x => cases h
    | relative x => cases h
    | _ => exact absurd rfl hs

theorem eq_numbers_of_settled {ops : List Operand} (h : ∀ op ∈ ops, IsSettled op) {vs : List Int}
    (hvs : operandValues? noNames ops = some vs) : ops = vs.map .number := by
  induction ops generalizing vs with
  | nil => cases hvs; rfl
  | cons op ops ih =>
    simp only [operandValues?, Option.bind_eq_some_iff, Option.map_eq_some_iff] at hvs
    obtain ⟨v, hv, ws, hws, rfl⟩ := hvs
    rw [List.map_cons, ← ih (fun o ho => h o (List.mem_cons_of_mem _ ho)) hws]
    rcases h op List.mem_cons_self with ⟨w, rfl⟩ | hnone
    · cases hv; rfl
    · rw [hnone] at hv; cases hv

namespace Draft

variable {forgive : Fault → Bool}

theorem isSettled_of_settle {scope : Scope} {op v : Operand} (h : settle forgive scope op = .ok v) :
    IsSettled v := by
  unfold settle at h
  cases hv : op.value? noNames with
  | some w =>
    rw [value_of_noNames hv] at h
    cases h
    exact .inl ⟨w, rfl⟩
  | none =>
    split at h
    · cases h
      exact .inl ⟨_, rfl⟩
    · cases h
      exact .inr hv
    · split at h <;> cases h
      exact .inr hv

theorem isSettled_of_settleAll {scope : Scope} {ops vs : List Operand}
    (h : settleAll forgive scope ops = .ok vs) :
    ∀ v ∈ vs, IsSettled v := by
  induction ops generalizing vs with
  | nil => cases h; simp
  | cons op ops ih =>
    rw [settleAll] at h
    cases hop : settle forgive scope op with
    | error x => simp [hop] at h
    | ok v =>
      simp only [hop, map_eq_ok_iff] at h
      obtain ⟨ws, hws, rfl⟩ := h
      exact List.forall_mem_cons.2 ⟨isSettled_of_settle hop, ih hws⟩

theorem settleAll_number (forgive : Fault → Bool) (scope : Scope) (vs : List Int) :
    settleAll forgive scope (vs.map .number) = .ok (vs.map .number) := by
  induction vs with
  | nil => rfl
  | cons v vs ih => simp [settleAll, settle, Operand.value, ih]

/-- A draft whose operands have been replaced by their values as far as these were known. -/
def Ripe : Draft → Prop
  | .code _ _ byte ops => byte.isSome = true ∧ ∀ op ∈ ops, IsSettled op
  | .definition _ ops => ∀ op ∈ ops, IsSettled op
  | _ => True

/-- What filling leaves of a ripe draft: only a draft with an open name changes. -/
inductive Filled : Draft → Draft → Prop
  | same (r : Draft) : Filled r r
  | code (a size b : Int) {ops : List Operand} (ops' : List Operand)
      (hopen : operandValues? noNames ops = none) :
    Filled (.code a size (some b) ops) (.code a size (some b) ops')
  | definition (name : Operand) {ops : List Operand} (ops' : List Operand)
      (hopen : operandValues? noNames ops = none) :
    Filled (.definition name ops) (.definition name ops')

/-- What may become of a draft. -/
inductive Grown : Draft → Draft → Prop
  | filled {r r' : Draft} (h : Filled r r') : Grown r r'
  | length (label : Option String) (a k : Int) :
      Grown (.header label a none) (.header label a (some k))

theorem Filled.trans {r r' r'' : Draft} (h : r.Filled r') (h' : r'.Filled r'') : r.Filled r'' := by
  cases h with
  | same => exact h'
  | code a size b ops' hopen => cases h' <;> exact .code a size b _ hopen
  | definition name ops' hopen => cases h' <;> exact .definition name _ hopen

theorem Grown.refl (r : Draft) : r.Grown r := .filled (.same r)

theorem Grown.trans {r r' r'' : Draft} (h : r.Grown r') (h' : r'.Grown r'') : r.Grown r'' := by
  cases h with
  | filled h =>
    cases h' with
    | filled h' => exact .filled (h.trans h')
    | length label a k => cases h; exact .length label a k
  | length label a k =>
    cases h' with
    | filled h' => cases h'; exact .length label a k

theorem filled_of_fill {scope : Int → Scope} {r r' : Draft} (hr : r.Ripe)
    (h : r.fill forgive scope = .ok r') :
    r.Filled r' ∧ r'.Ripe := by
  have hsame : ∀ {ops vs : List Operand} {sc : Scope} {ws : List Int}, (∀ op ∈ ops, IsSettled op) →
      operandValues? noNames ops = some ws → settleAll forgive sc ops = .ok vs → vs = ops := by
    intro ops vs sc ws hset hws hvs
    rw [eq_numbers_of_settled hset hws, settleAll_number, Except.ok.injEq] at hvs
    rw [← hvs, eq_numbers_of_settled hset hws]
  cases r with
  | code a size byte ops =>
    obtain ⟨hbyte, hset⟩ := hr
    obtain ⟨b, rfl⟩ := Option.isSome_iff_exists.1 hbyte
    obtain ⟨vs, hvs, rfl⟩ := (map_eq_ok_iff _ _ _).1 h
    refine ⟨?_, rfl, isSettled_of_settleAll hvs⟩
    cases hopen : operandValues? noNames ops with
    | none => exact .code a size b vs hopen
    | some ws => rw [hsame hset hopen hvs]; exact .same _
  | definition name ops =>
    obtain ⟨vs, hvs, rfl⟩ := (map_eq_ok_iff _ _ _).1 h
    refine ⟨?_, isSettled_of_settleAll hvs⟩
    cases hopen : operandValues? noNames ops with
    | none => exact .definition name vs hopen
    | some ws => rw [hsame hr hopen hvs]; exact .same _
  | header label a length => cases length <;> cases h
  | _ => cases h

theorem ripe_of_fill {scope : Int → Scope} {a size b : Int} {ops : List Operand} {r : Draft}
    (h : (Draft.code a size (some b) ops).fill forgive scope = .ok r) : r.Ripe := by
  obtain ⟨vs, hvs, rfl⟩ := (map_eq_ok_iff _ _ _).1 h
  exact ⟨rfl, isSettled_of_settleAll hvs⟩

theorem ripe_storageDraft (a size : Int) (ds : Option String) : (storageDraft a size ds).Ripe := by
  cases ds <;> trivial

theorem inOnePass_open {d : Dialect} (hd : d.strategy = .onePass) {next size : Int}
    {ops : List Operand} (hopen : operandValues? noNames ops = none) {field : Option String}
    (h : Field.inOnePass d (bareScope d next) size ops = .ok field) : field = some "" := by
  have hpending : ∀ w, Field.pending w (bareScope d next) ops = .ok field → field = some "" := by
    intro w hw
    obtain ⟨x, hx, -⟩ := Operand.values_of_operandValues?_eq_none (bareScope_knows hd next) hopen
    unfold Field.pending at hw
    rw [hx] at hw
    split at hw
    · cases hw; rfl
    · cases hw
    · next heq => cases heq
  unfold Field.inOnePass at h
  split at h
  · exact hpending _ h
  · exact hpending _ h

theorem Grown.record {d : Dialect} (hd : d.strategy = .onePass) {r r' : Draft} (h : r.Grown r')
    {o o' : ObjectRecord} (ho : r.record d = .ok o) (ho' : r'.record d = .ok o') : o.Grown o' := by
  cases h with
  | length label a k =>
    cases ho
    cases ho'
    exact .length label a k
  | filled h =>
    cases h with
    | same =>
      rw [ho, Except.ok.injEq] at ho'
      exact ho' ▸ .same o
    | code a size b ops' hopen =>
      obtain ⟨f, hf, rfl⟩ := (map_eq_ok_iff _ _ _).1 ho
      obtain ⟨f', -, rfl⟩ := (map_eq_ok_iff _ _ _).1 ho'
      rw [inOnePass_open hd hopen hf]
      simpa [Field.shown] using ObjectRecord.Grown.field a size b "" (Field.shown f')
    | definition name ops' hopen =>
      obtain ⟨f, hf, rfl⟩ := (map_eq_ok_iff _ _ _).1 ho
      obtain ⟨f', -, rfl⟩ := (map_eq_ok_iff _ _ _).1 ho'
      rw [inOnePass_open hd hopen hf]
      simpa [Field.shown] using ObjectRecord.Grown.digits name.text "" (Field.shown f')

end Draft

/-- The records of drafts that extend others extend their records. -/
theorem Extends.records {d : Dialect} (hd : d.strategy = .onePass) {rs rs' : List Draft}
    {os os' : List ObjectRecord} (h : Extends Draft.Grown rs rs')
    (hos : Draft.records d rs = .ok os) (hos' : Draft.records d rs' = .ok os') :
    Extends ObjectRecord.Grown os os' := by
  obtain ⟨hlen, hall⟩ := List.forall₂_iff_get.1 (Draft.records_eq_ok_iff.1 hos)
  obtain ⟨hlen', hall'⟩ := List.forall₂_iff_get.1 (Draft.records_eq_ok_iff.1 hos')
  refine ⟨by rw [← hlen, ← hlen']; exact h.length_le, fun {i o o'} ho ho' => ?_⟩
  obtain ⟨hi, rfl⟩ := List.getElem?_eq_some_iff.1 ho
  obtain ⟨hi', rfl⟩ := List.getElem?_eq_some_iff.1 ho'
  have hr : rs[i]? = some (rs.get ⟨i, hlen ▸ hi⟩) := List.getElem?_eq_getElem _
  have hr' : rs'[i]? = some (rs'.get ⟨i, hlen' ▸ hi'⟩) := List.getElem?_eq_getElem _
  exact (h.kept hr hr').record hd (hall i _ hi) (hall' i _ hi')

theorem Extends.header {rs rs' : List Draft} (h : Extends Draft.Filled rs rs') {i : Nat}
    {label : Option String} {a : Int} (hi : rs[i]? = some (.header label a none)) :
    rs'[i]? = some (.header label a none) := by
  have hlt : i < rs'.length := (List.getElem?_eq_some_iff.1 hi).1.trans_le h.length_le
  have hget : rs'[i]? = some rs'[i] := List.getElem?_eq_getElem hlt
  have hfilled := h.kept hi hget
  rw [hget]
  generalize rs'[i] = r at hfilled
  cases hfilled
  rfl

/-- Putting down the length of an open header extends the drafts. -/
theorem extends_setLength {rs : List Draft} {i : Nat} {label : Option String} {a : Int}
    (hi : rs[i]? = some (.header label a none)) (k : Int) {ds : List Draft}
    (h : changeAt (fun r => .ok (r.setLength k)) (some i) rs = .ok ds) (hripe : ∀ r ∈ rs, r.Ripe) :
    Extends Draft.Grown rs ds ∧ ∀ r ∈ ds, r.Ripe := by
  simp only [changeAt, Option.getD_some, hi, map_ok, Except.ok.injEq] at h
  subst h
  refine ⟨extends_set Draft.Grown.refl hi (.length label a k), fun r hr => ?_⟩
  rcases List.mem_or_eq_of_mem_set hr with hr | rfl
  · exact hripe r hr
  · trivial

end OnePass

end Assembler
