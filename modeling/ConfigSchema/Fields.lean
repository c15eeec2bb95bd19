/-!
# `Fields` — keyed entries in insertion order

The entries of a configuration object, and the keys that a schema declares, are pairs in the order in
which their keys were first written. Looking a key up is `List.lookup`; this module adds the two ways of
writing one.

## Contents
- `Fields.insert`: a key that is present keeps its place and takes the new entry, a new key goes last.
- `Fields.ofList`: all pairs written one after another, so that a repeated key keeps its first place and
  its last entry.
- Both keep the keys distinct (`nodup_keys_insert`, `nodup_keys_ofList`).
- Where the keys are distinct, finding a key and being an entry are the same (`mem_of_lookup`,
  `lookup_of_mem`).
-/

namespace ConfigSchema

/-- Entries under string keys, in insertion order. -/
abbrev Fields (α : Type) := List (String × α)

namespace Fields

variable {α : Type}

/-- The keys, in order. -/
def keys (fields : Fields α) : List String := fields.map Prod.fst

/-- Is there an entry under `key`? -/
def has (fields : Fields α) (key : String) : Bool := (fields.lookup key).isSome

/-- Writes one entry: over the present one if the key is there, else at the end. -/
def insert (key : String) (entry : α) : Fields α → Fields α
  | [] => [(key, entry)]
  | (k, old) :: rest => if k = key then (k, entry) :: rest else (k, old) :: insert key entry rest

/-- Writes all `pairs` in turn. -/
def ofList (pairs : List (String × α)) : Fields α :=
  pairs.foldl (fun fields pair => insert pair.1 pair.2 fields) []

@[simp] theorem keys_nil : keys ([] : Fields α) = [] := rfl

@[simp] theorem keys_cons (k : String) (a : α) (rest : Fields α) :
    keys ((k, a) :: rest) = k :: keys rest := rfl

/-! ## Looking up -/

theorem mem_of_lookup {fields : Fields α} {key : String} {a : α} (h : fields.lookup key = some a) :
    (key, a) ∈ fields := by
  obtain ⟨before, after, rfl, -⟩ := List.lookup_eq_some_iff.mp h
  exact List.mem_append_right _ List.mem_cons_self

theorem lookup_eq_none_iff_notMem {fields : Fields α} {key : String} :
    fields.lookup key = none ↔ key ∉ keys fields := by
  rw [List.lookup_eq_none_iff]
  constructor
  · intro h hk
    obtain ⟨p, hp, rfl⟩ := List.mem_map.mp hk
    simpa using h p hp
  · intro h p hp
    have hne : key ≠ p.1 := fun e => h (e ▸ List.mem_map_of_mem hp)
    simpa using hne

theorem has_iff_mem_keys {fields : Fields α} {key : String} :
    fields.has key = true ↔ key ∈ keys fields := by
  have h := @lookup_eq_none_iff_notMem α fields key
  cases hl : fields.lookup key with
  | none => simpa [has, hl] using h.mp hl
  | some a => simpa [has, hl] using h

/-- Where no key is repeated, every entry of a list is the one found under its key, whatever the keys are. -/
theorem lookup_eq_of_mem {κ : Type} [BEq κ] [LawfulBEq κ] {entries : List (κ × α)}
    (hd : (entries.map Prod.fst).Nodup) {e : κ × α} (he : e ∈ entries) : entries.lookup e.1 = some e.2 := by
  induction entries with
  | nil => exact absurd he List.not_mem_nil
  | cons first rest ih =>
      rw [List.map_cons, List.nodup_cons] at hd
      rcases List.mem_cons.mp he with rfl | hr
      · exact List.lookup_cons_self
      · have hne : e.1 ≠ first.1 := fun heq => hd.1 (heq ▸ List.mem_map_of_mem hr)
        rw [List.lookup_cons, beq_false_of_ne hne]
        exact ih hd.2 hr

theorem lookup_of_mem {fields : Fields α} (hd : (keys fields).Nodup) {key : String} {a : α}
    (h : (key, a) ∈ fields) : fields.lookup key = some a :=
  lookup_eq_of_mem hd h

/-- Fields with the same distinct keys in the same order, and the same entry under each key, are equal. -/
theorem eq_of_lookup_eq {fields fields' : Fields α} (hd : (keys fields).Nodup)
    (hkeys : keys fields = keys fields') (h : ∀ key, fields.lookup key = fields'.lookup key) :
    fields = fields' := by
  induction fields generalizing fields' with
  | nil => exact (List.map_eq_nil_iff.mp hkeys.symm).symm
  | cons pair rest ih =>
      obtain ⟨k, a⟩ := pair
      cases fields' with
      | nil => exact absurd hkeys (List.cons_ne_nil _ _)
      | cons pair' rest' =>
          obtain ⟨k', a'⟩ := pair'
          obtain ⟨rfl, hrest⟩ : k = k' ∧ keys rest = keys rest' := List.cons.inj hkeys
          rw [keys_cons, List.nodup_cons] at hd
          have ha : some a = some a' := by simpa using h k
          have hlookup : ∀ key, rest.lookup key = rest'.lookup key := by
            intro key
            by_cases hk : key = k
            · subst hk
              rw [lookup_eq_none_iff_notMem.mpr hd.1, lookup_eq_none_iff_notMem.mpr (hrest ▸ hd.1)]
            · simpa [List.lookup_cons, beq_false_of_ne hk] using h key
          rw [Option.some.inj ha, ih hd.2 hrest hlookup]

/-- What is made of each entry is found under its key. -/
theorem lookup_map {β : Type} (f : String × α → β) (fields : Fields α) (key : String) :
    (fields.map fun e => (e.1, f e)).lookup key = (fields.lookup key).map fun a => f (key, a) := by
  induction fields with
  | nil => rfl
  | cons pair rest ih =>
      obtain ⟨k, a⟩ := pair
      by_cases hk : key = k
      · subst hk
        simp
      · simp [List.lookup_cons, beq_false_of_ne hk, ih]

/-- Keeping entries by their keys keeps what is found under a key that is kept. -/
theorem lookup_filter {p : String → Bool} {key : String} (hp : p key = true) (fields : Fields α) :
    (fields.filter fun e => p e.1).lookup key = fields.lookup key := by
  induction fields with
  | nil => rfl
  | cons pair rest ih =>
      obtain ⟨k, a⟩ := pair
      by_cases hk : key = k
      · subst hk
        simp [hp]
      · rw [List.filter_cons]
        split <;> simp [List.lookup_cons, beq_false_of_ne hk, ih]

/-! ## Writing -/

/-- Writing a key adds it at the end, unless it is there already. -/
theorem keys_insert (key : String) (a : α) (fields : Fields α) :
    keys (insert key a fields) =
      if key ∈ keys fields then keys fields else keys fields ++ [key] := by
  induction fields with
  | nil => rfl
  | cons pair rest ih =>
      obtain ⟨k, old⟩ := pair
      by_cases h : k = key
      · simp [insert, h]
      · have hk : key ≠ k := fun e => h e.symm
        by_cases hr : key ∈ keys rest <;> simp [insert, h, hk, ih, hr]

theorem nodup_keys_insert (key : String) (a : α) {fields : Fields α} (h : (keys fields).Nodup) :
    (keys (insert key a fields)).Nodup := by
  rw [keys_insert]
  split
  · exact h
  · rename_i hk
    rw [List.nodup_append]
    refine ⟨h, by simp, ?_⟩
    intro x hx y hy e
    rw [List.mem_singleton] at hy
    exact hk (by rw [← hy, ← e]; exact hx)

theorem nodup_keys_ofList (pairs : List (String × α)) : (keys (ofList pairs)).Nodup := by
  suffices step : ∀ fields : Fields α, (keys fields).Nodup →
      (keys (pairs.foldl (fun fields pair => insert pair.1 pair.2 fields) fields)).Nodup from
    step [] (by simp)
  induction pairs with
  | nil => exact fun _ h => h
  | cons pair rest ih => exact fun _ h => ih _ (nodup_keys_insert pair.1 pair.2 h)

/-- The entry just written is the one that is found. -/
theorem lookup_insert_self (key : String) (a : α) (fields : Fields α) :
    (insert key a fields).lookup key = some a := by
  induction fields with
  | nil => simp [insert]
  | cons pair rest ih =>
      obtain ⟨k, old⟩ := pair
      by_cases h : k = key
      · simp [insert, h]
      · have hk : (key == k) = false := by simpa using fun e => h e.symm
        simp [insert, h, List.lookup_cons, hk, ih]

/-- The entries under other keys stay. -/
theorem lookup_insert_of_ne {key other : String} (hne : other ≠ key) (a : α) (fields : Fields α) :
    (insert key a fields).lookup other = fields.lookup other := by
  have hb : (other == key) = false := by simpa using hne
  induction fields with
  | nil => simp [insert, List.lookup_cons, hb]
  | cons pair rest ih =>
      obtain ⟨k, old⟩ := pair
      by_cases h : k = key
      · subst h
        simp [insert, List.lookup_cons, hb]
      · by_cases ho : other == k <;> simp [insert, h, List.lookup_cons, ho, ih]

end Fields

end ConfigSchema
