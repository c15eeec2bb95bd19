import ConfigSchema.Proofs.SharedPaths

/-!
# `Schema.Conflict` — when a merge fails, and how

A merge fails at once if one of the two schemas cannot be merged. Apart from that there is one cause: under some path
of shared keys stand schemas of different names. `Conflict a b path e` says so, `e` being the error that names the
last key and the two schemas. Of several conflicts the first counts, where the declared keys of the first side are
gone through in depth (`Sooner`).

`merge_eq_error_iff` puts this together. It follows from what happens to one key: `conflict_iff` says what a conflict
is about, and `settleShared_eq_error_iff` what goes wrong when the key is settled.
-/

namespace ConfigSchema

namespace Schema

/-! ## Conflicts -/

/-- **A conflict.** A path of shared keys leads to schemas of different names. -/
def Conflict (a b : Schema) (path : List String) (e : MergeError) : Prop :=
  ∃ above key first second, path = above ++ [key] ∧ SharedPath a b path first second ∧ first.name ≠ second.name ∧
    e = .conflict key first.name second.name

/-- **The order of depth.** Going through the declared keys of the schema in depth, one comes upon the first path
    before the second. -/
inductive Sooner : Schema → List String → List String → Prop
  | here {s : Schema} {keys : ClosedKeys} {key key' : String} {path path' : List String}
      (hs : s.closedKeys? = some keys) (h : keys.fields.keys.idxOf key < keys.fields.keys.idxOf key') :
      Sooner s (key :: path) (key' :: path')
  | deeper {s field : Schema} {keys : ClosedKeys} {key : String} {path path' : List String}
      (hs : s.closedKeys? = some keys) (hfield : keys.fields.lookup key = some field)
      (h : Sooner field path path') : Sooner s (key :: path) (key :: path')

/-- The first of the conflicts. -/
def FirstConflict (a b : Schema) (path : List String) (e : MergeError) : Prop :=
  Conflict a b path e ∧ ∀ path' e', Conflict a b path' e' → path' = path ∨ Sooner a path path'

variable {options : MergeOptions} {a b first second : Schema} {left right : ClosedKeys} {key : String}
  {path : List String} {e : MergeError}

theorem mergeable_name {s : Schema} (h : s.mergeable?.isSome) : s.name = Kind.object.name := by
  obtain ⟨keys, hkeys⟩ := Option.isSome_iff_exists.mp h
  exact (mergeable?_eq_some_iff.mp hkeys).1

/-- Only what can be merged has conflicts. -/
theorem Conflict.mergeable (h : Conflict a b path e) : a.mergeable?.isSome ∧ b.mergeable?.isSome := by
  obtain ⟨above, key, first, second, rfl, hpath, -, -⟩ := h
  generalize hp : above ++ [key] = path at hpath
  cases hpath with
  | root => exact absurd hp (by simp)
  | key ha hb => exact ⟨Option.isSome_of_eq_some ha, Option.isSome_of_eq_some hb⟩

/-- A conflict at a key under which both sides declare a schema: the names differ, or there is a conflict below. -/
def ConflictAt (key : String) (first second : Schema) (below : List String) (e : MergeError) : Prop :=
  (below = [] ∧ first.name ≠ second.name ∧ e = .conflict key first.name second.name) ∨ Conflict first second below e

/-- **What a conflict is about**: a conflict at one of the keys that both declare. -/
theorem conflict_iff (ha : a.mergeable? = some left) (hb : b.mergeable? = some right) :
    Conflict a b path e ↔ ∃ key below first second, path = key :: below ∧
      left.fields.lookup key = some first ∧ right.fields.lookup key = some second ∧
      ConflictAt key first second below e := by
  constructor
  · rintro ⟨above, last, x, y, hpath, hshared, hname, rfl⟩
    cases hshared with
    | root => exact absurd hpath (by simp)
    | @key _ _ first second _ _ left' right' key below ha' hb' hfirst hsecond hbelow =>
        obtain rfl := Option.some.inj (ha.symm.trans ha')
        obtain rfl := Option.some.inj (hb.symm.trans hb')
        refine ⟨key, below, first, second, rfl, hfirst, hsecond, ?_⟩
        cases above with
        | nil =>
            obtain ⟨rfl, rfl⟩ := List.cons.inj hpath
            cases hbelow
            exact .inl ⟨rfl, hname, rfl⟩
        | cons key' above =>
            obtain ⟨-, rfl⟩ := List.cons.inj hpath
            exact .inr ⟨above, last, x, y, rfl, hbelow, hname, rfl⟩
  · rintro ⟨key, below, first, second, rfl, hfirst, hsecond, ⟨rfl, hname, rfl⟩ | hconflict⟩
    · exact ⟨[], key, first, second, rfl, .key ha hb hfirst hsecond (.root first second), hname, rfl⟩
    · obtain ⟨above, last, x, y, rfl, hshared, hname, rfl⟩ := hconflict
      exact ⟨key :: above, last, x, y, rfl, .key ha hb hfirst hsecond hshared, hname, rfl⟩

/-! ### The first conflict -/

/-- Shared paths lead to one pair of schemas. -/
theorem SharedPath.unique {x y x' y' : Schema} (h : SharedPath a b path x y) (h' : SharedPath a b path x' y') :
    x = x' ∧ y = y' := by
  induction h with
  | root =>
      cases h'
      exact ⟨rfl, rfl⟩
  | key ha hb hfirst hsecond _ ih =>
      cases h' with
      | key ha' hb' hfirst' hsecond' hbelow' =>
          obtain rfl := Option.some.inj (ha.symm.trans ha')
          obtain rfl := Option.some.inj (hb.symm.trans hb')
          obtain rfl := Option.some.inj (hfirst.symm.trans hfirst')
          obtain rfl := Option.some.inj (hsecond.symm.trans hsecond')
          exact ih hbelow'

/-- One path has one conflict. -/
theorem Conflict.unique {e' : MergeError} (h : Conflict a b path e) (h' : Conflict a b path e') : e = e' := by
  obtain ⟨above, key, first, second, rfl, hpath, -, rfl⟩ := h
  obtain ⟨above', key', first', second', heq, hpath', -, rfl⟩ := h'
  obtain ⟨rfl, rfl⟩ := hpath.unique hpath'
  obtain ⟨-, hkey⟩ := List.append_inj' heq rfl
  rw [(List.cons.inj hkey).1]

/-- Of two paths, not both come first. -/
theorem Sooner.asymm {s : Schema} {path path' : List String} (h : Sooner s path path') : ¬ Sooner s path' path := by
  induction h with
  | @here s keys key key' path path' hs h =>
      intro h'
      cases h' with
      | here hs' h' =>
          obtain rfl := Option.some.inj (hs.symm.trans hs')
          exact Nat.lt_asymm h h'
      | deeper => exact Nat.lt_irrefl _ h
  | @deeper s field keys key path path' hs hfield _ ih =>
      intro h'
      cases h' with
      | here _ h' => exact Nat.lt_irrefl _ h'
      | deeper hs' hfield' h' =>
          obtain rfl := Option.some.inj (hs.symm.trans hs')
          obtain rfl := Option.some.inj (hfield.symm.trans hfield')
          exact ih h'

/-- There is one first conflict at most. -/
theorem FirstConflict.unique {path' : List String} {e' : MergeError} (h : FirstConflict a b path e)
    (h' : FirstConflict a b path' e') : e = e' := by
  rcases h.2 path' e' h'.1 with rfl | hsooner
  · exact h.1.unique h'.1
  · rcases h'.2 path e h.1 with rfl | hsooner'
    · exact h.1.unique h'.1
    · exact absurd hsooner' hsooner.asymm

/-! ## Failing merges -/

/-- What goes wrong when a key of both sides is settled. -/
theorem settleShared_eq_error_iff : settleShared options key first second = .error e ↔
    if first.mergeable?.isSome ∧ second.mergeable?.isSome then merge options first second = .error e
    else first.name ≠ second.name ∧ e = .conflict key first.name second.name := by
  rw [settleShared]
  split
  · cases merge options first second <;> simp [Functor.map, Except.map]
  · split <;> rename_i hname
    · simp [Functor.map, Except.map, hname]
    · simp [Functor.map, Except.map, hname, eq_comm]

/-- The keys of the first side are settled in turn, up to the first that cannot be settled. -/
theorem result_mergeFields_eq_error {right left : Fields Schema}
    (h : (mergeFields options right left).result = .error e) :
    ∃ before key first second after, left = before ++ (key, first) :: after ∧ right.lookup key = some second ∧
      (∀ field ∈ before, ∃ s, settle options field.1 field.2 (right.lookup field.1) = .ok s) ∧
      settleShared options key first second = .error e := by
  induction left with
  | nil => exact absurd h (by simp [mergeFields])
  | cons field rest ih =>
      obtain ⟨key, first⟩ := field
      rw [result_mergeFields_cons] at h
      cases hs : settle options key first (right.lookup key) with
      | error e' =>
          rw [hs] at h
          obtain rfl : e' = e := Except.error.inj h
          cases hsecond : right.lookup key with
          | none =>
              rw [hsecond] at hs
              exact absurd hs (by simp [settle])
          | some second =>
              rw [hsecond] at hs
              exact ⟨[], key, first, second, rest, rfl, hsecond, fun _ hf => absurd hf List.not_mem_nil, hs⟩
      | ok s =>
          rw [hs, Except.bind] at h
          have hrest : (mergeFields options right rest).result = .error e := by
            cases hrest : (mergeFields options right rest).result with
            | ok others => exact absurd h (by simp [hrest, Except.map])
            | error e' =>
                rw [hrest] at h
                exact congrArg Except.error (Except.error.inj h)
          obtain ⟨before, key', first', second, after, rfl, hsecond, hbefore, herror⟩ := ih hrest
          refine ⟨(key, first) :: before, key', first', second, after, rfl, hsecond, fun f hf => ?_, herror⟩
          rcases List.mem_cons.mp hf with rfl | hf
          · exact ⟨s, hs⟩
          · exact hbefore f hf

/-- A merge of schemas that can be merged fails in settling a key of the first side. -/
theorem result_mergeFields_of_merge (ha : a.mergeable? = some left) (hb : b.mergeable? = some right)
    (h : merge options a b = .error e) : (mergeFields options right.fields left.fields).result = .error e := by
  rw [merge_eq, ha, hb] at h
  have hboth : (mergeBoth options right.fields left).result.map object = .error e := h
  rw [mergeBoth, Logged.result_bind] at hboth
  cases hf : (mergeFields options right.fields left.fields).result with
  | error e' =>
      rw [hf] at hboth
      exact congrArg Except.error (Except.error.inj hboth)
  | ok settled =>
      rw [hf] at hboth
      exact absurd hboth (by simp [Except.bind, Except.map, onlySecond, Logged.result_bind])

/-! ### Conflicts are what makes merges fail -/

/-- A key that is settled has no conflict, if no merge below has one. -/
theorem not_conflictAt_of_settled {s : Schema} {below : List String}
    (hbelow : ∀ m, merge options first second = .ok m → ¬ Conflict first second below e)
    (h : settleShared options key first second = .ok s) : ¬ ConflictAt key first second below e := by
  obtain ⟨-, hsettled⟩ := settleShared_eq_ok_iff.mp h
  rintro (⟨-, hname, -⟩ | hconflict) <;> split at hsettled <;> rename_i hboth
  · exact hname ((mergeable_name hboth.1).trans (mergeable_name hboth.2).symm)
  · exact hname hsettled.1
  · obtain ⟨m, hm, -⟩ := hsettled
    exact hbelow m hm hconflict
  · exact hboth hconflict.mergeable

/-- A merge that succeeds has met no conflict. -/
theorem not_conflict_of_merge {m : Schema} (h : merge options a b = .ok m) : ¬ Conflict a b path e := by
  intro hconflict
  induction a using keysInduction generalizing b m path with
  | step a ih =>
    obtain ⟨left, right, merged, hleft, hright, hmerges, rfl⟩ := merges_of_merge h
    obtain ⟨key, below, first, second, rfl, hfirst, hsecond, hat⟩ := (conflict_iff hleft hright).mp hconflict
    obtain ⟨s, -, hs⟩ := hmerges.lookup_shared hfirst hsecond
    refine not_conflictAt_of_settled (fun m hm hbelow => ?_) hs hat
    exact ih left (mergeable?_eq_some_iff.mp hleft).2 (key, first) (Fields.mem_of_lookup hfirst) hm hbelow

/-- Of distinct keys, those that are not before `key` come after it. -/
theorem idxOf_lt_of_nodup {before after : List String} {key key' : String} (hnodup : (before ++ key :: after).Nodup)
    (hbefore : key' ∉ before) (hne : key' ≠ key) :
    (before ++ key :: after).idxOf key < (before ++ key :: after).idxOf key' := by
  have hkey : key ∉ before := fun hmem =>
    (List.nodup_append.mp hnodup).2.2 key hmem key List.mem_cons_self rfl
  rw [List.idxOf_append_of_notMem hkey, List.idxOf_append_of_notMem hbefore, List.idxOf_cons_self,
    List.idxOf_cons_ne _ hne.symm]
  omega

/-- If all keys before `key` are settled, a conflict at another key is met later. -/
theorem idxOf_lt_of_settled {before after : Fields Schema} {right : Fields Schema} {key' : String}
    {first' second' : Schema} {below : List String} (hnodup : (Fields.keys (before ++ (key, first) :: after)).Nodup)
    (hbefore : ∀ field ∈ before, ∃ s, settle options field.1 field.2 (right.lookup field.1) = .ok s)
    (hfirst : (before ++ (key, first) :: after).lookup key' = some first') (hsecond : right.lookup key' = some second')
    (hat : ConflictAt key' first' second' below e) (hne : key' ≠ key) :
    (Fields.keys (before ++ (key, first) :: after)).idxOf key <
      (Fields.keys (before ++ (key, first) :: after)).idxOf key' := by
  -- A key before `key` is settled, and a settled key has no conflict.
  have hbeforeKey : key' ∉ before.keys := by
    intro hmem
    obtain ⟨field, hf, rfl⟩ := List.mem_map.mp hmem
    obtain ⟨s, hs⟩ := hbefore field hf
    obtain rfl := Option.some.inj ((Fields.lookup_of_mem hnodup (List.mem_append_left _ hf)).symm.trans hfirst)
    rw [hsecond] at hs
    exact not_conflictAt_of_settled (fun _ hm => not_conflict_of_merge hm) hs hat
  rw [Fields.keys, List.map_append] at hnodup ⊢
  exact idxOf_lt_of_nodup hnodup hbeforeKey hne

/-- The first conflict below the first key that has one is the first conflict. -/
theorem firstConflict_of_conflictAt {below : List String} (hleft : a.mergeable? = some left)
    (hright : b.mergeable? = some right) (hfirst : left.fields.lookup key = some first)
    (hsecond : right.fields.lookup key = some second) (hat : ConflictAt key first second below e)
    (hbelow : ∀ below' e', ConflictAt key first second below' e' → below' = below ∨ Sooner first below below')
    (hlater : ∀ {key' first' second' below' e'}, left.fields.lookup key' = some first' →
      right.fields.lookup key' = some second' → ConflictAt key' first' second' below' e' → key' ≠ key →
      left.fields.keys.idxOf key < left.fields.keys.idxOf key') :
    FirstConflict a b (key :: below) e := by
  have hkeys := (mergeable?_eq_some_iff.mp hleft).2
  refine ⟨(conflict_iff hleft hright).mpr ⟨key, below, first, second, rfl, hfirst, hsecond, hat⟩, ?_⟩
  intro path' e' hconflict
  obtain ⟨key', below', first', second', rfl, hfirst', hsecond', hat'⟩ := (conflict_iff hleft hright).mp hconflict
  by_cases hkey : key' = key
  · subst hkey
    obtain rfl := Option.some.inj (hfirst.symm.trans hfirst')
    obtain rfl := Option.some.inj (hsecond.symm.trans hsecond')
    rcases hbelow below' e' hat' with rfl | hsooner
    · exact .inl rfl
    · exact .inr (.deeper hkeys hfirst hsooner)
  · exact .inr (.here hkeys (hlater hfirst' hsecond' hat' hkey))

/-- **A merge that fails has met a conflict**, and reports the first. -/
theorem exists_firstConflict_of_merge (ha : a.DistinctKeys) (hboth : a.mergeable?.isSome ∧ b.mergeable?.isSome)
    (h : merge options a b = .error e) : ∃ path, FirstConflict a b path e := by
  induction a using keysInduction generalizing b with
  | step a ih =>
    obtain ⟨left, hleft⟩ := Option.isSome_iff_exists.mp hboth.1
    obtain ⟨right, hright⟩ := Option.isSome_iff_exists.mp hboth.2
    have hkeys := (mergeable?_eq_some_iff.mp hleft).2
    obtain ⟨hnodup, hdistinct⟩ := ha.closedKeys hkeys
    obtain ⟨before, key, first, second, after, hfields, hsecond, hbefore, herror⟩ :=
      result_mergeFields_eq_error (result_mergeFields_of_merge hleft hright h)
    have hmem : (key, first) ∈ left.fields := hfields ▸ List.mem_append_right before List.mem_cons_self
    have hfirst : left.fields.lookup key = some first := Fields.lookup_of_mem hnodup hmem
    -- The keys before `key` are settled, so wherever else there is a conflict, it is met later.
    have hlater : ∀ {key' first' second' below' e'}, left.fields.lookup key' = some first' →
        right.fields.lookup key' = some second' → ConflictAt key' first' second' below' e' → key' ≠ key →
        left.fields.keys.idxOf key < left.fields.keys.idxOf key' := by
      intro key' first' second' below' e' hfirst' hsecond' hat hne
      have hnodup' : left.fields.keys.Nodup := hnodup
      rw [hfields] at hnodup' hfirst' ⊢
      exact idxOf_lt_of_settled hnodup' hbefore hfirst' hsecond' hat hne
    rw [settleShared_eq_error_iff] at herror
    split at herror <;> rename_i hmergeable
    · -- The schemas under the key are merged, and this fails. They have one name.
      obtain ⟨below, hconflict, hfirstBelow⟩ := ih left hkeys (key, first) hmem (hdistinct _ hmem) hmergeable herror
      refine ⟨key :: below, firstConflict_of_conflictAt hleft hright hfirst hsecond (.inr hconflict) ?_ hlater⟩
      rintro below' e' (⟨-, hname, -⟩ | hconflict')
      · exact absurd ((mergeable_name hmergeable.1).trans (mergeable_name hmergeable.2).symm) hname
      · exact hfirstBelow below' e' hconflict'
    · -- The names under the key differ, and what cannot be merged has no conflict inside.
      obtain ⟨hname, rfl⟩ := herror
      refine ⟨[key], firstConflict_of_conflictAt hleft hright hfirst hsecond (.inl ⟨rfl, hname, rfl⟩) ?_ hlater⟩
      rintro below' e' (⟨rfl, -, -⟩ | hconflict')
      · exact .inl rfl
      · exact absurd hconflict'.mergeable hmergeable

/-! ## The errors of a merge -/

/-- Schemas that cannot be merged are refused by their names. -/
theorem merge_of_not_mergeable (options : MergeOptions) (h : ¬ (a.mergeable?.isSome ∧ b.mergeable?.isSome)) :
    merge options a b = .error (.unmergeable a.name b.name) := by
  rw [merge_eq]
  cases ha : a.mergeable? with
  | none => rfl
  | some left =>
      cases hb : b.mergeable? with
      | none => rfl
      | some right => exact absurd ⟨Option.isSome_of_eq_some ha, Option.isSome_of_eq_some hb⟩ h

/-- **Schemas are merged** if they can be merged and have no conflict. -/
theorem exists_merge_iff (ha : a.DistinctKeys) (options : MergeOptions) :
    (∃ m, merge options a b = .ok m) ↔
      (a.mergeable?.isSome ∧ b.mergeable?.isSome) ∧ ∀ path e, ¬ Conflict a b path e := by
  constructor
  · rintro ⟨m, hm⟩
    obtain ⟨left, right, -, hleft, hright, -⟩ := merges_of_merge hm
    refine ⟨⟨Option.isSome_of_eq_some hleft, Option.isSome_of_eq_some hright⟩, fun path e => ?_⟩
    exact not_conflict_of_merge hm
  · rintro ⟨hboth, hnone⟩
    cases hm : merge options a b with
    | ok m => exact ⟨m, rfl⟩
    | error e =>
        obtain ⟨path, hconflict, -⟩ := exists_firstConflict_of_merge ha hboth hm
        exact absurd hconflict (hnone path e)

/-- Of schemas that can be merged, the merge reports the first conflict. -/
theorem merge_eq_error_iff_firstConflict (ha : a.DistinctKeys) (hboth : a.mergeable?.isSome ∧ b.mergeable?.isSome)
    (options : MergeOptions) (e : MergeError) :
    merge options a b = .error e ↔ ∃ path, FirstConflict a b path e := by
  refine ⟨exists_firstConflict_of_merge ha hboth, fun ⟨path, hpath⟩ => ?_⟩
  cases hm : merge options a b with
  | ok m => exact absurd hpath.1 (not_conflict_of_merge hm)
  | error e' =>
      obtain ⟨path', hpath'⟩ := exists_firstConflict_of_merge ha hboth hm
      rw [hpath'.unique hpath]

/-- Two schemas are named as unmergeable only if one of them cannot be merged: no merge below gets that far. -/
theorem merge_eq_unmergeable_iff (ha : a.DistinctKeys) (options : MergeOptions) (x y : String) :
    merge options a b = .error (.unmergeable x y) ↔
      ¬ (a.mergeable?.isSome ∧ b.mergeable?.isSome) ∧ x = a.name ∧ y = b.name := by
  constructor
  · intro hm
    by_cases hboth : a.mergeable?.isSome ∧ b.mergeable?.isSome
    · -- What such schemas report is a conflict.
      obtain ⟨path, ⟨above, key, first, second, -, -, -, herror⟩, -⟩ :=
        (merge_eq_error_iff_firstConflict ha hboth options _).mp hm
      exact absurd herror (by simp)
    · have herror := hm.symm.trans (merge_of_not_mergeable options hboth)
      exact ⟨hboth, MergeError.unmergeable.inj (Except.error.inj herror)⟩
  · rintro ⟨hboth, rfl, rfl⟩
    exact merge_of_not_mergeable options hboth

theorem exists_error_iff_exists_conflict (ha : a.DistinctKeys)
    (hboth : a.mergeable?.isSome ∧ b.mergeable?.isSome) (options : MergeOptions) :
    (∃ e, merge options a b = .error e) ↔ ∃ path e, Conflict a b path e := by
  constructor
  · rintro ⟨e, he⟩
    obtain ⟨path, hpath⟩ := (merge_eq_error_iff_firstConflict ha hboth options e).mp he
    exact ⟨path, e, hpath.1⟩
  · rintro ⟨path, e, hconflict⟩
    cases hm : merge options a b with
    | ok m => exact absurd hconflict (not_conflict_of_merge hm)
    | error e' => exact ⟨e', rfl⟩

/-- **When a merge fails, and how.** A merge names the two schemas as unmergeable if and only if one of them cannot be
    merged. Of schemas that can, it fails if and only if they have a conflict, and reports the first one. The options
    have no say in this. -/
theorem merge_eq_error_iff (ha : a.DistinctKeys) (options : MergeOptions) :
    (∀ x y, merge options a b = .error (.unmergeable x y) ↔
      ¬ (a.mergeable?.isSome ∧ b.mergeable?.isSome) ∧ x = a.name ∧ y = b.name) ∧
    (a.mergeable?.isSome ∧ b.mergeable?.isSome →
      ((∃ e, merge options a b = .error e) ↔ ∃ path e, Conflict a b path e) ∧
      ∀ e, merge options a b = .error e ↔ ∃ path, FirstConflict a b path e) ∧
    ∀ options', (∃ m, merge options a b = .ok m) ↔ ∃ m, merge options' a b = .ok m := by
  refine ⟨merge_eq_unmergeable_iff ha options, fun hboth => ⟨?_, ?_⟩, fun options' => ?_⟩
  · exact exists_error_iff_exists_conflict ha hboth options
  · exact merge_eq_error_iff_firstConflict ha hboth options
  · rw [exists_merge_iff ha, exists_merge_iff ha]

/-- The conflict inside `server` counts before that at `tls`, though the second side declares `tls` first. -/
theorem merge_eq_error_server :
    let a := object [("mode", string), ("server", object [("host", string), ("port", int)]), ("tls", bool)]
    let b := object [("tls", string), ("server", object [("port", bool)]), ("mode", string)]
    a.DistinctKeys ∧ (a.mergeable?.isSome ∧ b.mergeable?.isSome) ∧
      merge ⟨true⟩ a b = .error (.conflict "port" "int" "boolean") ∧
      ∃ path, FirstConflict a b path (.conflict "port" "int" "boolean") := by
  intro a b
  have ha : a.DistinctKeys := by decide
  have hboth : a.mergeable?.isSome ∧ b.mergeable?.isSome := ⟨rfl, rfl⟩
  have herror : merge ⟨true⟩ a b = .error (.conflict "port" "int" "boolean") := rfl
  exact ⟨ha, hboth, herror, (((merge_eq_error_iff ha ⟨true⟩).2.1 hboth).2 _).mp herror⟩

end Schema

end ConfigSchema
