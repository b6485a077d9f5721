/-! # Maps that remember the order of insertion

A key keeps the place of its first insertion when it is written again.  Looking up is by the first
entry with the key; `insert` never adds a second one. -/

namespace Assembler
set_option autoImplicit false

/-- A finite map as the list of its entries in the order of first insertion. -/
structure OrderedMap (κ α : Type) where
  entries : List (κ × α)
  deriving Repr, DecidableEq

namespace OrderedMap

variable {κ α β : Type} [DecidableEq κ]

def empty : OrderedMap κ α := ⟨[]⟩

instance : EmptyCollection (OrderedMap κ α) := ⟨empty⟩
instance : Inhabited (OrderedMap κ α) := ⟨empty⟩

/-- Looks a key up in a list of entries. -/
def lookup (k : κ) : List (κ × α) → Option α
  | [] => none
  | (k', a) :: rest => if k' = k then some a else lookup k rest

/-- Writes an entry over the one with the same key, or at the end. -/
def put (k : κ) (a : α) : List (κ × α) → List (κ × α)
  | [] => [(k, a)]
  | (k', b) :: rest => if k' = k then (k, a) :: rest else (k', b) :: put k a rest

def get? (m : OrderedMap κ α) (k : κ) : Option α := lookup k m.entries

def contains (m : OrderedMap κ α) (k : κ) : Bool := (m.get? k).isSome

/-- Writes a value; a known key keeps its place. -/
def insert (m : OrderedMap κ α) (k : κ) (a : α) : OrderedMap κ α := ⟨put k a m.entries⟩

def erase (m : OrderedMap κ α) (k : κ) : OrderedMap κ α := ⟨m.entries.filter fun e => e.1 ≠ k⟩

def keys (m : OrderedMap κ α) : List κ := m.entries.map (·.1)

def isEmpty (m : OrderedMap κ α) : Bool := m.entries.isEmpty

def size (m : OrderedMap κ α) : Nat := m.entries.length

/-- Inserts the entries of a list one after another. -/
def ofList (es : List (κ × α)) : OrderedMap κ α := es.foldl (fun m e => m.insert e.1 e.2) empty

def mapValues (f : α → β) (m : OrderedMap κ α) : OrderedMap κ β :=
  ⟨m.entries.map fun e => (e.1, f e.2)⟩

/-! ## Looking up what was written -/

theorem lookup_put (k j : κ) (a : α) (es : List (κ × α)) :
    lookup j (put k a es) = if k = j then some a else lookup j es := by
  induction es with
  | nil => simp [put, lookup]
  | cons e es ih =>
    obtain ⟨k', b⟩ := e
    by_cases h : k' = k
    · subst h
      by_cases hj : k' = j <;> simp [put, lookup, hj]
    · by_cases hj : k' = j
      · subst hj
        simp [put, lookup, h, Ne.symm h]
      · simp [put, lookup, h, hj, ih]

/-- After an insertion its key has the new value and every other key keeps its own. -/
@[simp] theorem get?_insert (m : OrderedMap κ α) (k j : κ) (a : α) :
    (m.insert k a).get? j = if k = j then some a else m.get? j := lookup_put k j a m.entries

@[simp] theorem get?_empty (k : κ) : (empty : OrderedMap κ α).get? k = none := rfl

@[simp] theorem get?_emptyCollection (k : κ) : (∅ : OrderedMap κ α).get? k = none := rfl

/-- After a key was taken out it has no value and every other key keeps its own. -/
@[simp] theorem get?_erase (m : OrderedMap κ α) (k j : κ) :
    (m.erase k).get? j = if k = j then none else m.get? j := by
  obtain ⟨es⟩ := m
  simp only [get?, erase]
  induction es with
  | nil => simp [lookup]
  | cons e es ih =>
    obtain ⟨k', b⟩ := e
    by_cases h : k' = k
    · subst h
      by_cases hj : k' = j <;> simp_all [lookup]
    · by_cases hj : k' = j
      · subst hj
        simp [lookup, h, Ne.symm h]
      · simp_all [lookup]

/-- Changing every value changes what each key finds. -/
@[simp] theorem get?_mapValues (f : α → β) (m : OrderedMap κ α) (k : κ) :
    (m.mapValues f).get? k = (m.get? k).map f := by
  obtain ⟨es⟩ := m
  simp only [get?, mapValues]
  induction es with
  | nil => rfl
  | cons e es ih =>
    obtain ⟨k', b⟩ := e
    by_cases h : k' = k <;> simp_all [lookup]

/-- A key is listed if and only if it has a value. -/
theorem mem_keys_iff (m : OrderedMap κ α) (k : κ) : k ∈ m.keys ↔ (m.get? k).isSome = true := by
  obtain ⟨es⟩ := m
  simp only [get?, keys]
  induction es with
  | nil => simp [lookup]
  | cons e es ih =>
    obtain ⟨k', b⟩ := e
    by_cases h : k' = k
    · simp [lookup, h]
    · simp [lookup, h, Ne.symm h, ← ih]

/-- Taking out a key without a value changes nothing. -/
theorem erase_of_get?_eq_none (m : OrderedMap κ α) {k : κ} (h : m.get? k = none) :
    m.erase k = m := by
  have hkey : k ∉ m.keys := by simp [mem_keys_iff, h]
  unfold erase
  rw [List.filter_eq_self.2]
  intro e he
  simp only [ne_eq, decide_eq_true_eq]
  intro hek
  exact hkey (List.mem_map.2 ⟨e, he, hek⟩)

/-- Writing a value leaves the keys as they are, but for a new key at the end. -/
theorem keys_insert (m : OrderedMap κ α) (k : κ) (a : α) :
    (m.insert k a).keys = if k ∈ m.keys then m.keys else m.keys ++ [k] := by
  obtain ⟨es⟩ := m
  simp only [keys, insert]
  induction es with
  | nil => simp [put]
  | cons e es ih =>
    obtain ⟨k', b⟩ := e
    by_cases h : k' = k
    · simp [put, h]
    · simp only [put, h, if_false, List.map_cons, ih, List.mem_cons, Ne.symm h, false_or]
      by_cases hk : k ∈ es.map (·.1) <;> simp [hk]

theorem keys_prefix_insert (m : OrderedMap κ α) (k : κ) (a : α) :
    m.keys <+: (m.insert k a).keys := by
  rw [keys_insert]
  split
  · exact List.prefix_rfl
  · exact List.prefix_append _ _

/-- A new key is written at the end. -/
theorem entries_insert {m : OrderedMap κ α} {k : κ} (h : m.get? k = none) (a : α) :
    (m.insert k a).entries = m.entries ++ [(k, a)] := by
  obtain ⟨es⟩ := m
  simp only [get?, insert] at h ⊢
  induction es with
  | nil => rfl
  | cons e es ih =>
    obtain ⟨k', b⟩ := e
    by_cases hk : k' = k
    · simp [lookup, hk] at h
    · simp only [lookup, hk, if_false] at h
      simp only [put, hk, if_false, ih h, List.cons_append]

/-- What a key finds is an entry. -/
theorem mem_entries_of_get? {m : OrderedMap κ α} {k : κ} {a : α} (h : m.get? k = some a) :
    (k, a) ∈ m.entries := by
  obtain ⟨es⟩ := m
  simp only [get?] at h ⊢
  induction es with
  | nil => cases h
  | cons e es ih =>
    obtain ⟨k', b⟩ := e
    by_cases hk : k' = k
    · simp_all [lookup]
    · simp only [lookup, hk, if_false] at h
      exact List.mem_cons_of_mem _ (ih h)

/-- An entry is what its key finds if no key is listed twice. -/
theorem get?_of_mem_entries {m : OrderedMap κ α} (hm : m.keys.Nodup) {k : κ} {a : α}
    (h : (k, a) ∈ m.entries) :
    m.get? k = some a := by
  obtain ⟨es⟩ := m
  simp only [get?, keys] at hm h ⊢
  induction es with
  | nil => cases h
  | cons e es ih =>
    obtain ⟨k', b⟩ := e
    rw [List.map_cons, List.nodup_cons] at hm
    rcases List.mem_cons.1 h with h | h
    · obtain ⟨rfl, rfl⟩ := Prod.mk.inj h
      simp [lookup]
    · have hk : k' ≠ k := fun hk => hm.1 (List.mem_map.2 ⟨(k, a), h, hk.symm⟩)
      simp only [lookup, hk, if_false, ih hm.2 h]

/-- Writing a value lists no key twice. -/
theorem nodup_keys_insert {m : OrderedMap κ α} (hm : m.keys.Nodup) (k : κ) (a : α) :
    (m.insert k a).keys.Nodup := by
  rw [keys_insert]
  split
  · exact hm
  · next hk =>
    refine List.nodup_append.2 ⟨hm, by simp, fun j hj i hi => ?_⟩
    rw [List.mem_singleton.1 hi]
    exact fun hjk => hk (hjk ▸ hj)

/-- Writing the value that a key has changes nothing. -/
theorem insert_of_get? {m : OrderedMap κ α} {k : κ} {a : α} (h : m.get? k = some a) :
    m.insert k a = m := by
  obtain ⟨es⟩ := m
  simp only [get?, insert, mk.injEq] at h ⊢
  induction es with
  | nil => cases h
  | cons e es ih =>
    obtain ⟨k', b⟩ := e
    by_cases hk : k' = k
    · simp_all [lookup, put]
    · simp only [lookup, hk, if_false] at h
      simp only [put, hk, if_false, ih h]

end OrderedMap

end Assembler
