import ConfigSchema.Proofs.Ensures
import ConfigSchema.Proofs.Restrictions
import ConfigSchema.Schema.Merge

/-!
# `Schema.settle` — merging, key by key

A merge settles each key from what the two sides declare for it, and from nothing else. `Schema.settle` is what
becomes of a key that the first side declares, and `Schema.Merges` describes the merge of two lists of
declared keys: the keys of the first side and then those that only the second has, and under each key what it
is settled on. A merge of two schemas succeeds with just what `Merges` describes (`merge_eq_ok_iff`).

Whether schemas can be merged, and with what result, depends on their rules; their own defaults only matter to
the key that they are declared for (`settleShared_eq_ok_iff`).
-/

namespace ConfigSchema

namespace Schema

variable {options : MergeOptions}

/-! ## Schemas that can be merged -/

/-- The declared keys that a schema shows are those of an object rule in it. -/
theorem exists_within_of_closedKeys {s : Schema} {keys : ClosedKeys} (h : s.closedKeys? = some keys) :
    ∃ t : Schema, t.Within s ∧ t.rule = .object keys.fields keys.suggest := by
  induction s using Schema.induction with
  | step s ih =>
    obtain ⟨default?, rule⟩ := s
    rw [closedKeys?] at h
    cases rule with
    | object fields suggest =>
        obtain rfl : ⟨fields, suggest⟩ = keys := Option.some.inj h
        exact ⟨_, .refl _, rfl⟩
    | compose first second =>
        have hsecond : second ∈ [first, second] := List.mem_cons_of_mem _ List.mem_cons_self
        obtain ⟨t, ht, hrule⟩ := ih second hsecond h
        exact ⟨t, .part hsecond ht, hrule⟩
    | _ => exact absurd h (by simp [Rule.closedKeys?])

/-- **Induction over the declared keys.** What holds of a schema whenever it holds of those declared in it holds of
    every schema. -/
theorem keysInduction {P : Schema → Prop}
    (step : ∀ s : Schema, (∀ keys, s.closedKeys? = some keys → ∀ field ∈ keys.fields, P field.2) → P s)
    (s : Schema) : P s :=
  step s fun keys hk field hf =>
    have : sizeOf field.2 < sizeOf s := by
      obtain ⟨t, ht, hrule⟩ := exists_within_of_closedKeys hk
      have hpart : field.2 ∈ t.rule.parts := hrule ▸ List.mem_map_of_mem hf
      exact Nat.lt_of_lt_of_le (sizeOf_lt_of_mem_parts hpart) (sizeOf_le_of_within ht)
    keysInduction step field.2
termination_by sizeOf s

/-- What holds everywhere in a schema holds of the declared keys that it shows. -/
theorem Everywhere.closedKeys {p : Rule → Prop} {s : Schema} (h : s.Everywhere p) {keys : ClosedKeys}
    (hs : s.closedKeys? = some keys) :
    p (.object keys.fields keys.suggest) ∧ ∀ field ∈ keys.fields, field.2.Everywhere p := by
  obtain ⟨t, ht, hrule⟩ := exists_within_of_closedKeys hs
  have heverywhere : t.Everywhere p := h.within ht
  refine ⟨hrule ▸ heverywhere.here, fun field hf => heverywhere.part ?_⟩
  rw [hrule]
  exact List.mem_map_of_mem hf

theorem mergeable?_eq_some_iff {s : Schema} {keys : ClosedKeys} :
    s.mergeable? = some keys ↔ s.name = Kind.object.name ∧ s.closedKeys? = some keys := by
  unfold mergeable?
  split <;> simp_all

theorem mergeable?_objectWith (suggest : Bool) (fields : Fields Schema) :
    (objectWith suggest fields).mergeable? = some ⟨fields, suggest⟩ :=
  mergeable?_eq_some_iff.mpr ⟨rfl, rfl⟩

/-- Schemas with one rule are merged alike. -/
theorem mergeable?_congr {s t : Schema} (h : s.rule = t.rule) : s.mergeable? = t.mergeable? := by
  obtain ⟨default?, rule⟩ := s
  obtain ⟨default?', rule'⟩ := t
  obtain rfl : rule = rule' := h
  rw [mergeable?, mergeable?, name, name, closedKeys?, closedKeys?]

/-! ## Settling a key -/

/-- What becomes of a key that both sides declare. -/
def settleShared (options : MergeOptions) (key : String) (first second : Schema) : Except MergeError Schema :=
  inheritDefault first second <$>
    if first.mergeable?.isSome ∧ second.mergeable?.isSome then merge options first second
    else if first.name = second.name then .ok second
    else .error (.conflict key first.name second.name)

/-- What becomes of a key that the first side declares. -/
def settle (options : MergeOptions) (key : String) (first : Schema) : Option Schema → Except MergeError Schema
  | none => .ok (if options.ignoreFirstDefaults then first.withoutDefault else first)
  | some second => settleShared options key first second

/-- Merging asks for declared keys on both sides, and merges these. -/
theorem merge_eq (options : MergeOptions) (a b : Schema) :
    merge options a b =
      ((a.mergeable?.bind fun left => b.mergeable?.map fun right =>
        object <$> (mergeBoth options right.fields left).result).getD (.error (.unmergeable a.name b.name))) := by
  rw [merge, mergeLogged, mergeObjects?_eq]
  cases a.mergeable? with
  | none => rfl
  | some left =>
      cases b.mergeable? with
      | none => rfl
      | some right => exact Logged.result_map _ _

theorem isSome_mergeObjects?_iff (options : MergeOptions) {a b : Schema} :
    (a.mergeObjects? options b).isSome ↔ a.mergeable?.isSome ∧ b.mergeable?.isSome := by
  rw [mergeObjects?_eq]
  cases a.mergeable? <;> cases b.mergeable? <;> simp

/-- The logged form of `settleShared`. -/
theorem result_settleShared (options : MergeOptions) (key : String) (first second : Schema) :
    (inheritDefault first second <$>
      match first.mergeObjects? options second with
      | some merging => merging
      | none =>
        if first.name = second.name then pure second
        else Logged.fail (.conflict key first.name second.name)).result =
      settleShared options key first second := by
  rw [Logged.result_map, settleShared]
  refine congrArg (Except.map (inheritDefault first second)) ?_
  cases h : first.mergeObjects? options second with
  | some merging =>
      have hboth : first.mergeable?.isSome ∧ second.mergeable?.isSome :=
        (isSome_mergeObjects?_iff options).mp (h ▸ rfl)
      rw [if_pos hboth, merge, mergeLogged, h]
      rfl
  | none =>
      have hnot : ¬ (first.mergeable?.isSome ∧ second.mergeable?.isSome) := by
        rw [← isSome_mergeObjects?_iff options, h]
        exact Bool.false_ne_true
      rw [if_neg hnot]
      show Logged.result (if first.name = second.name then _ else _) = _
      split <;> rfl

/-- A key that is settled is logged, and then the others are. -/
theorem result_mergeFields_cons (options : MergeOptions) (right : Fields Schema) (key : String) (first : Schema)
    (rest : Fields Schema) :
    (mergeFields options right ((key, first) :: rest)).result =
      (settle options key first (right.lookup key)).bind fun s =>
        (mergeFields options right rest).result.map fun others => (key, s) :: others := by
  have hthen : ∀ s : Schema, (do
      Logged.log (.merged key s.name)
      let others ← mergeFields options right rest
      pure ((key, s) :: others) : Logged (Fields Schema)).result =
      (mergeFields options right rest).result.map fun others => (key, s) :: others := by
    intro s
    rw [Logged.result_bind, Logged.result_log, Except.bind, Logged.result_bind]
    cases (mergeFields options right rest).result <;> rfl
  rw [mergeFields]
  cases right.lookup key with
  | none =>
      -- The branch was continued inside the choice between the branches; here it is a bind again.
      show (pure _ >>= _ : Logged _).result = _
      rw [Logged.result_bind, Logged.result_pure, Except.bind]
      exact hthen _
  | some second =>
      show ((_ <$> _) >>= _ : Logged _).result = _
      rw [Logged.result_bind]
      exact congrArg₂ Except.bind (result_settleShared options key first second) (funext hthen)

/-! ## Merging declared keys -/

/-- A field of the first side is settled on `field'`. -/
def SettledOn (options : MergeOptions) (right : Fields Schema) (field field' : String × Schema) : Prop :=
  field'.1 = field.1 ∧ settle options field.1 field.2 (right.lookup field.1) = .ok field'.2

theorem result_mergeFields_eq_ok_iff {right left settled : Fields Schema} :
    (mergeFields options right left).result = .ok settled ↔
      List.Forall₂ (SettledOn options right) left settled := by
  induction left generalizing settled with
  | nil =>
      show Except.ok [] = Except.ok settled ↔ _
      rw [Except.ok.injEq, List.forall₂_nil_left_iff, eq_comm]
  | cons field rest ih =>
      obtain ⟨key, first⟩ := field
      rw [result_mergeFields_cons]
      cases hs : settle options key first (right.lookup key) with
      | error e =>
          constructor
          · exact fun h => absurd h (by simp [Except.bind])
          · rintro (_ | ⟨⟨-, hsettle⟩, -⟩)
            exact absurd (hs.symm.trans hsettle) (by simp)
      | ok s =>
          rw [Except.bind]
          cases hrest : (mergeFields options right rest).result with
          | error e =>
              constructor
              · exact fun h => absurd h (by simp [Except.map])
              · rintro (_ | ⟨-, hall⟩)
                exact absurd (hrest.symm.trans (ih.mpr hall)) (by simp)
          | ok others =>
              rw [Except.map, Except.ok.injEq]
              constructor
              · rintro rfl
                exact .cons ⟨rfl, hs⟩ (ih.mp hrest)
              · rintro (_ | ⟨⟨hkey, hsettle⟩, hall⟩)
                have hentry := Except.ok.inj (hs.symm.trans hsettle)
                have hothers := Except.ok.inj (hrest.symm.trans (ih.mpr hall))
                rw [hentry, hothers]
                exact congrArg (· :: _) (Prod.ext hkey.symm rfl)

/-- The keys of the first side, settled, and then those that only the second side has. -/
theorem result_mergeBoth_eq_ok_iff {left : ClosedKeys} {right merged : Fields Schema} :
    (mergeBoth options right left).result = .ok merged ↔
      ∃ settled, List.Forall₂ (SettledOn options right) left.fields settled ∧
        merged = settled ++ right.filter fun e => !left.fields.has e.1 := by
  simp only [← result_mergeFields_eq_ok_iff]
  rw [mergeBoth, Logged.result_bind]
  cases (mergeFields options right left.fields).result with
  | error e => simp [Except.bind]
  | ok settled =>
      show Except.ok (settled ++ _) = Except.ok merged ↔ _
      simp [eq_comm]

/-- What becomes of a key, from what the two sides declare for it. -/
def combine (options : MergeOptions) (key : String) :
    Option Schema → Option Schema → Except MergeError (Option Schema)
  | none, second? => .ok second?
  | some first, second? => (settle options key first second?).map some

/-- **The merge of two lists of declared keys.** -/
structure Merges (options : MergeOptions) (left right merged : Fields Schema) : Prop where
  /-- The keys of the first side, and then those that only the second side has. -/
  keys : merged.keys = left.keys ++ right.keys.filter (· ∉ left.keys)
  /-- Each key is settled by what the two sides declare for it. -/
  entry : ∀ key, combine options key (left.lookup key) (right.lookup key) = .ok (merged.lookup key)

/-- A key is found among the settled ones exactly if the first side has it. -/
theorem lookup_settled {right left settled : Fields Schema}
    (h : List.Forall₂ (SettledOn options right) left settled) (key : String) :
    (left.lookup key = none ∧ settled.lookup key = none) ∨
      ∃ first s, left.lookup key = some first ∧ settled.lookup key = some s ∧
        settle options key first (right.lookup key) = .ok s := by
  induction h with
  | nil => exact .inl ⟨rfl, rfl⟩
  | @cons field field' rest rest' hfield _ ih =>
      obtain ⟨k, first⟩ := field
      obtain ⟨k', s⟩ := field'
      obtain ⟨rfl, hsettle⟩ : k' = k ∧ _ := hfield
      by_cases hk : key = k'
      · subst hk
        exact .inr ⟨first, s, List.lookup_cons_self, List.lookup_cons_self, hsettle⟩
      · simpa only [List.lookup_cons, beq_false_of_ne hk] using ih

/-- What a merge of declared keys yields is described by `Merges`. -/
theorem merges_of_settled {right left settled : Fields Schema}
    (h : List.Forall₂ (SettledOn options right) left settled) :
    Merges options left right (settled ++ right.filter fun e => !left.has e.1) where
  keys := by
    have hsettled : settled.keys = left.keys := forall₂_map_eq (h.imp fun _ _ hfield => hfield.1)
    have hadded : (right.filter fun e => !left.has e.1).map Prod.fst =
        right.keys.filter (· ∉ left.keys) := by
      show _ = (right.map Prod.fst).filter _
      rw [List.filter_map]
      refine congrArg _ (List.filter_congr fun e _ => ?_)
      rw [Bool.eq_iff_iff]
      simp [← Fields.has_iff_mem_keys]
    rw [Fields.keys, List.map_append, hadded]
    exact congrArg (· ++ _) hsettled
  entry key := by
    rw [List.lookup_append]
    rcases lookup_settled h key with ⟨hleft, hnone⟩ | ⟨first, s, hleft, hs, hsettle⟩
    · have hkeep : (!left.has key) = true := by simp [Fields.has, hleft]
      rw [hleft, hnone, combine, Option.none_or]
      exact congrArg Except.ok (Fields.lookup_filter (p := fun key => !left.has key) hkeep right).symm
    · rw [hleft, hs, combine, hsettle, Option.some_or]
      rfl

theorem Merges.nodup_keys {left right merged : Fields Schema} (h : Merges options left right merged)
    (hleft : left.keys.Nodup) (hright : right.keys.Nodup) : merged.keys.Nodup := by
  rw [h.keys, List.nodup_append]
  refine ⟨hleft, hright.filter _, fun key hk key' hk' => ?_⟩
  rintro rfl
  simp [hk] at hk'

/-- Where the keys are distinct, there is one merge at most. -/
theorem Merges.unique {left right merged merged' : Fields Schema} (h : Merges options left right merged)
    (h' : Merges options left right merged') (hleft : left.keys.Nodup) (hright : right.keys.Nodup) :
    merged = merged' :=
  Fields.eq_of_lookup_eq (h.nodup_keys hleft hright) (h.keys.trans h'.keys.symm) fun key =>
    Except.ok.inj ((h.entry key).symm.trans (h'.entry key))

/-- If every key can be settled, the keys of the first side can be settled in turn. -/
theorem exists_settled {right left : Fields Schema} (hleft : left.keys.Nodup)
    (h : ∀ key, ∃ merged?, combine options key (left.lookup key) (right.lookup key) = .ok merged?) :
    ∃ settled, List.Forall₂ (SettledOn options right) left settled := by
  have hall : ∀ field ∈ left, ∃ field', SettledOn options right field field' := by
    intro field hf
    obtain ⟨merged?, hmerged⟩ := h field.1
    rw [Fields.lookup_eq_of_mem hleft hf, combine] at hmerged
    cases hs : settle options field.1 field.2 (right.lookup field.1) with
    | error e => exact absurd hmerged (by simp [hs, Except.map])
    | ok s => exact ⟨(field.1, s), rfl, hs⟩
  clear h hleft
  induction left with
  | nil => exact ⟨[], .nil⟩
  | cons field rest ih =>
      obtain ⟨field', hfield⟩ := hall field List.mem_cons_self
      obtain ⟨settled, hsettled⟩ := ih fun f hf => hall f (List.mem_cons_of_mem field hf)
      exact ⟨field' :: settled, .cons hfield hsettled⟩

/-- If every key can be settled, there is a merge. -/
theorem exists_merges {left right : Fields Schema} (hleft : left.keys.Nodup)
    (h : ∀ key, ∃ merged?, combine options key (left.lookup key) (right.lookup key) = .ok merged?) :
    ∃ merged, Merges options left right merged := by
  obtain ⟨settled, hsettled⟩ := exists_settled hleft h
  exact ⟨_, merges_of_settled hsettled⟩

/-- A merge of declared keys succeeds with what `Merges` describes. -/
theorem result_mergeBoth_eq_ok_iff_merges {left : ClosedKeys} {right merged : Fields Schema}
    (hleft : left.fields.keys.Nodup) (hright : right.keys.Nodup) :
    (mergeBoth options right left).result = .ok merged ↔ Merges options left.fields right merged := by
  rw [result_mergeBoth_eq_ok_iff]
  constructor
  · rintro ⟨settled, hsettled, rfl⟩
    exact merges_of_settled hsettled
  · intro h
    obtain ⟨settled, hsettled⟩ := exists_settled hleft fun key => ⟨_, h.entry key⟩
    exact ⟨settled, hsettled, h.unique (merges_of_settled hsettled) hleft hright⟩

/-! ## Merging schemas -/

/-- A merge that succeeds has merged the declared keys of both sides. -/
theorem merge_eq_ok_iff_mergeBoth {a b m : Schema} :
    merge options a b = .ok m ↔ ∃ left right merged, a.mergeable? = some left ∧ b.mergeable? = some right ∧
      (mergeBoth options right.fields left).result = .ok merged ∧ m = object merged := by
  rw [merge_eq]
  cases a.mergeable? with
  | none => simp
  | some left =>
      cases b.mergeable? with
      | none => simp
      | some right =>
          show object <$> (mergeBoth options right.fields left).result = .ok m ↔ _
          cases hboth : (mergeBoth options right.fields left).result with
          | error e => simp [hboth, Functor.map, Except.map]
          | ok merged => simp [hboth, Functor.map, Except.map, eq_comm]

/-- What a merge yields is described by `Merges`. -/
theorem merges_of_merge {a b m : Schema} (h : merge options a b = .ok m) :
    ∃ left right merged, a.mergeable? = some left ∧ b.mergeable? = some right ∧
      Merges options left.fields right.fields merged ∧ m = object merged := by
  obtain ⟨left, right, merged, ha, hb, hmerged, rfl⟩ := merge_eq_ok_iff_mergeBoth.mp h
  obtain ⟨settled, hsettled, rfl⟩ := result_mergeBoth_eq_ok_iff.mp hmerged
  exact ⟨left, right, _, ha, hb, merges_of_settled hsettled, rfl⟩

/-- **A merge succeeds with what `Merges` describes**, if no key is declared twice. -/
theorem merge_eq_ok_iff {a b m : Schema} {left right : ClosedKeys} (ha : a.mergeable? = some left)
    (hb : b.mergeable? = some right) (hleft : left.fields.keys.Nodup) (hright : right.fields.keys.Nodup) :
    merge options a b = .ok m ↔ ∃ merged, Merges options left.fields right.fields merged ∧ m = object merged := by
  rw [merge_eq_ok_iff_mergeBoth, ha, hb]
  simp [result_mergeBoth_eq_ok_iff_merges hleft hright]

/-- A merge looks at the rules of both sides only. -/
theorem merge_congr {a a' b b' : Schema} {result : Except MergeError Schema} (h : merge options a b = result)
    (ha : a'.rule = a.rule) (hb : b'.rule = b.rule) : merge options a' b' = result := by
  rw [← h, merge_eq, merge_eq, mergeable?_congr ha, mergeable?_congr hb, name_eq a', name_eq b', ha, hb, ← name_eq,
    ← name_eq]

/-- A key that both sides declare takes the second default, or else the first. Its rule is that of the merge, or,
    where the two cannot be merged, that of the second side, if they agree in name. -/
theorem settleShared_eq_ok_iff {key : String} {first second s : Schema} :
    settleShared options key first second = .ok s ↔
      s.default? = second.default?.or first.default? ∧
        if first.mergeable?.isSome ∧ second.mergeable?.isSome then
          ∃ m, merge options first second = .ok m ∧ s.rule = m.rule
        else first.name = second.name ∧ s.rule = second.rule := by
  have hinherit : ∀ merged : Schema, merged.default? = none ∨ merged = second →
      (inheritDefault first second merged = s ↔
        s.default? = second.default?.or first.default? ∧ s.rule = merged.rule) := by
    rintro ⟨default?, rule⟩ hmerged
    obtain ⟨default?', rule'⟩ := s
    unfold inheritDefault
    cases hd : second.default?.or first.default? with
    | some d => simp [withDefault, eq_comm]
    | none =>
        have hnone : default? = none := by
          rcases hmerged with h | rfl
          · exact h
          · exact (Option.or_eq_none_iff.mp hd).1
        simp [hnone, eq_comm]
  rw [settleShared]
  split
  · cases hm : merge options first second with
    | error e => simp [Functor.map, Except.map]
    | ok m =>
        have hnone : m.default? = none := by
          obtain ⟨left, right, merged, -, -, -, rfl⟩ := merges_of_merge hm
          rfl
        simpa [Functor.map, Except.map] using hinherit m (.inl hnone)
  · split <;> rename_i hname
    · simpa [Functor.map, Except.map, hname] using hinherit second (.inr rfl)
    · simp [Functor.map, Except.map, hname]

/-! ## What a merge is made of -/

/-- A key of the first side keeps its rule, or has that of the second side or of the merge of both. -/
theorem settle_rule {key : String} {first s : Schema} {second? : Option Schema}
    (h : settle options key first second? = .ok s) :
    (second? = none ∧ s.rule = first.rule) ∨
      ∃ second, second? = some second ∧
        (s.rule = second.rule ∨ ∃ m, merge options first second = .ok m ∧ s.rule = m.rule) := by
  cases second? with
  | none =>
      have hs := Except.ok.inj h
      refine .inl ⟨rfl, ?_⟩
      rw [← hs]
      split <;> rfl
  | some second =>
      refine .inr ⟨second, rfl, ?_⟩
      obtain ⟨-, hrule⟩ := settleShared_eq_ok_iff.mp h
      split at hrule
      · exact .inr hrule
      · exact .inl hrule.2

/-- The rule of a key that one side declares is that side's; that of a key of both is the second side's, or that of
    the merge of both. -/
theorem Merges.entry_cases {left right merged : Fields Schema} (h : Merges options left right merged)
    (key : String) :
    (right.lookup key = none ∧ (merged.lookup key).map rule = (left.lookup key).map rule) ∨
      (left.lookup key = none ∧ merged.lookup key = right.lookup key) ∨
      ∃ first second s, left.lookup key = some first ∧ right.lookup key = some second ∧
        merged.lookup key = some s ∧
        (s.rule = second.rule ∨ ∃ m, merge options first second = .ok m ∧ s.rule = m.rule) := by
  have hentry := h.entry key
  cases hleft : left.lookup key with
  | none =>
      rw [hleft] at hentry
      exact .inr (.inl ⟨rfl, (Except.ok.inj hentry).symm⟩)
  | some first =>
      rw [hleft, combine] at hentry
      cases hs : settle options key first (right.lookup key) with
      | error e => exact absurd hentry (by simp [hs, Except.map])
      | ok s =>
          rw [hs] at hentry
          have hmerged : some s = merged.lookup key := Except.ok.inj hentry
          rw [← hmerged]
          rcases settle_rule hs with ⟨hright, hrule⟩ | ⟨second, hright, hrule⟩
          · exact .inl ⟨hright, congrArg some hrule⟩
          · exact .inr (.inr ⟨first, second, s, rfl, hright, rfl, hrule⟩)

/-- **A merge brings in nothing but objects.** What holds of object rules, and everywhere in both sides, holds
    everywhere in their merge. -/
theorem Everywhere.merge {p : Rule → Prop} (hobject : ∀ fields suggest, p (.object fields suggest)) {a b m : Schema}
    (ha : a.Everywhere p) (hb : b.Everywhere p) (h : merge options a b = .ok m) : m.Everywhere p := by
  induction a using keysInduction generalizing b m with
  | step a ih =>
    obtain ⟨left, right, merged, hleft, hright, hmerged, rfl⟩ := merge_eq_ok_iff_mergeBoth.mp h
    obtain ⟨settled, hsettled, rfl⟩ := result_mergeBoth_eq_ok_iff.mp hmerged
    have hleft' := (mergeable?_eq_some_iff.mp hleft).2
    have hright' := hb.closedKeys (mergeable?_eq_some_iff.mp hright).2
    refine everywhere_iff.mpr ⟨hobject _ _, fun t ht => ?_⟩
    obtain ⟨field, hf, rfl⟩ := List.mem_map.mp ht
    rcases List.mem_append.mp hf with hf | hf
    · obtain ⟨first, hfirst, -, hsettle⟩ := exists_of_forall₂_right hsettled hf
      have hfirst' := (ha.closedKeys hleft').2 first hfirst
      rcases settle_rule hsettle with ⟨-, hrule⟩ | ⟨second, hsecond, hrule | ⟨m, hm, hrule⟩⟩
      · exact hfirst'.congr hrule
      · exact (hright'.2 _ (Fields.mem_of_lookup hsecond)).congr hrule
      · have hsecond' := hright'.2 _ (Fields.mem_of_lookup hsecond)
        exact (ih left hleft' first hfirst hfirst' hsecond' hm).congr hrule
    · exact hright'.2 field (List.mem_filter.mp hf).1

end Schema

end ConfigSchema
