import ConfigSchema.Schema.Basic

/-!
# `Rule.parts` — what is inside a schema

A schema is built from schemas. `Rule.parts` lists those directly inside a rule, and with it goes an induction
principle that treats all rules alike (`Schema.induction`). `Schema.Within` is being inside at any depth.
`Schema.height` is the number of container levels in a schema.

Closed and open objects are one case throughout: `Rule.declared` is what either kind declares, and
`Rule.governor? rule key` is the schema that judges the entry under `key`, if there is any.
-/

namespace ConfigSchema

/-! ## Parts -/

namespace Rule

/-- The schemas directly inside a rule. -/
def parts : Rule → List Schema
  | .compose first second => [first, second]
  | .array element => [element]
  | .object fields _ => fields.map Prod.snd
  | .objects _ specifics element => element :: specifics.map Prod.snd
  | .either alternatives => alternatives
  | .deprecated inner _ => [inner]
  | _ => []

/-- Is the rule one for objects? -/
def IsKeyed : Rule → Prop
  | .object .. => True
  | .objects .. => True
  | _ => False

/-- The keys an object rule declares, with their schemas. -/
def declared : Rule → Fields Schema
  | .object fields _ => fields
  | .objects _ specifics _ => specifics
  | _ => []

/-- The schema that judges the entry under `key`. -/
def governor? (rule : Rule) (key : String) : Option Schema :=
  match rule with
  | .object fields _ => fields.lookup key
  | .objects _ specifics element => (specifics.lookup key).or (some element)
  | _ => none

theorem mem_parts_of_declared {rule : Rule} {field : String × Schema} (h : field ∈ rule.declared) :
    field.2 ∈ rule.parts := by
  cases rule with
  | object fields suggest => exact List.mem_map_of_mem h
  | objects advice specifics element => exact List.mem_cons_of_mem _ (List.mem_map_of_mem h)
  | _ => exact absurd h List.not_mem_nil

theorem mem_parts_of_governor {rule : Rule} {key : String} {s : Schema}
    (h : rule.governor? key = some s) : s ∈ rule.parts := by
  cases rule with
  | object fields suggest => exact List.mem_map_of_mem (Fields.mem_of_lookup h)
  | objects advice specifics element =>
      cases hl : specifics.lookup key with
      | none =>
          rw [governor?, hl, Option.none_or, Option.some.injEq] at h
          rw [← h]
          exact List.mem_cons_self
      | some t =>
          rw [governor?, hl, Option.some_or, Option.some.injEq] at h
          rw [← h]
          exact List.mem_cons_of_mem _ (List.mem_map_of_mem (Fields.mem_of_lookup hl))
  | _ => exact absurd h (by simp [governor?])

/-- Where no key is declared twice, a declared key is governed by the schema it is declared with. -/
theorem governor?_of_declared {rule : Rule} (hd : (Fields.keys rule.declared).Nodup)
    {field : String × Schema} (h : field ∈ rule.declared) : rule.governor? field.1 = some field.2 := by
  have hl : rule.declared.lookup field.1 = some field.2 := Fields.lookup_of_mem hd h
  cases rule with
  | object fields suggest => exact hl
  | objects advice specifics element =>
      show (specifics.lookup field.1).or (some element) = some field.2
      rw [show specifics.lookup field.1 = some field.2 from hl, Option.some_or]
  | _ => exact absurd h List.not_mem_nil

end Rule

theorem Schema.sizeOf_lt_of_mem_parts {s t : Schema} (h : t ∈ s.rule.parts) : sizeOf t < sizeOf s := by
  obtain ⟨default?, rule⟩ := s
  suffices hlt : sizeOf t < sizeOf rule by
    rw [Schema.mk.sizeOf_spec]
    omega
  have hfields : ∀ fields : Fields Schema, t ∈ fields.map Prod.snd → sizeOf t < sizeOf fields := by
    intro fields ht
    obtain ⟨⟨key, s⟩, hf, rfl⟩ := List.mem_map.mp ht
    have hlt := List.sizeOf_lt_of_mem hf
    rw [Prod.mk.sizeOf_spec] at hlt
    show sizeOf s < sizeOf fields
    omega
  cases rule with
  | compose first second =>
      rw [Rule.compose.sizeOf_spec]
      rcases List.mem_cons.mp h with rfl | ht
      · omega
      · rw [List.mem_singleton.mp ht]
        omega
  | array element =>
      rw [List.mem_singleton.mp h, Rule.array.sizeOf_spec]
      omega
  | object fields suggest =>
      have hlt := hfields fields h
      rw [Rule.object.sizeOf_spec]
      omega
  | objects advice specifics element =>
      rw [Rule.objects.sizeOf_spec]
      rcases List.mem_cons.mp h with rfl | ht
      · omega
      · have hlt := hfields specifics ht
        omega
  | either alternatives =>
      have hlt := List.sizeOf_lt_of_mem (show t ∈ alternatives from h)
      rw [Rule.either.sizeOf_spec]
      omega
  | deprecated inner notice =>
      rw [List.mem_singleton.mp h, Rule.deprecated.sizeOf_spec]
      omega
  | _ => exact absurd h List.not_mem_nil

/-- **Induction over the parts.** What holds of a schema whenever it holds of the schemas directly inside
    its rule holds of every schema. -/
theorem Schema.induction {P : Schema → Prop} (step : ∀ s : Schema, (∀ t ∈ s.rule.parts, P t) → P s)
    (s : Schema) : P s :=
  step s fun t ht =>
    have := Schema.sizeOf_lt_of_mem_parts ht
    Schema.induction step t
termination_by sizeOf s

/-- **`t` stands in `s`**, at whatever depth, or is `s` itself. -/
inductive Schema.Within : Schema → Schema → Prop
  | refl (s : Schema) : Within s s
  | part {s t u : Schema} (ht : t ∈ s.rule.parts) (h : Within u t) : Within u s

theorem Schema.sizeOf_le_of_within {s t : Schema} (h : t.Within s) : sizeOf t ≤ sizeOf s := by
  induction h with
  | refl => exact Nat.le_refl _
  | part ht _ ih => exact Nat.le_trans ih (Nat.le_of_lt (sizeOf_lt_of_mem_parts ht))

/-! ## Levels -/

namespace Rule

/-- The kind of the containers that a rule walks. -/
def container? : Rule → Option Kind
  | .array _ => some .array
  | .object .. => some .object
  | .objects .. => some .object
  | _ => none

theorem container?_of_isKeyed {rule : Rule} (h : rule.IsKeyed) : rule.container? = some .object := by
  cases rule with
  | object fields suggest => rfl
  | objects advice specifics element => rfl
  | _ => exact absurd h id

end Rule

mutual

/-- The number of container levels that the schema describes. -/
def Schema.height : Schema → Nat
  | ⟨_, rule⟩ => rule.height

/-- The number of container levels that the rule describes. -/
def Rule.height : Rule → Nat
  | .compose first second => max first.height second.height
  | .array element => element.height + 1
  | .object fields _ => Schema.heightOfFields fields + 1
  | .objects _ specifics element => max element.height (Schema.heightOfFields specifics) + 1
  | .either alternatives => Schema.heightOfList alternatives
  | .deprecated inner _ => inner.height
  | _ => 0

/-- The greatest height of a schema in the fields. -/
def Schema.heightOfFields : List (String × Schema) → Nat
  | [] => 0
  | (_, s) :: rest => max s.height (Schema.heightOfFields rest)

/-- The greatest height of a schema in the list. -/
def Schema.heightOfList : List Schema → Nat
  | [] => 0
  | s :: rest => max s.height (Schema.heightOfList rest)

end

namespace Schema

theorem height_le_heightOfFields {fields : Fields Schema} {t : Schema} (h : t ∈ fields.map Prod.snd) :
    t.height ≤ heightOfFields fields := by
  induction fields with
  | nil => exact absurd h List.not_mem_nil
  | cons field rest ih =>
      obtain ⟨key, s⟩ := field
      rw [heightOfFields]
      rcases List.mem_cons.mp h with rfl | ht
      · exact Nat.le_max_left _ _
      · exact Nat.le_trans (ih ht) (Nat.le_max_right _ _)

theorem height_le_heightOfList {schemas : List Schema} {t : Schema} (h : t ∈ schemas) :
    t.height ≤ heightOfList schemas := by
  induction schemas with
  | nil => exact absurd h List.not_mem_nil
  | cons s rest ih =>
      rw [heightOfList]
      rcases List.mem_cons.mp h with rfl | ht
      · exact Nat.le_max_left _ _
      · exact Nat.le_trans (ih ht) (Nat.le_max_right _ _)

/-- What is inside a container lies on a lower level. -/
theorem height_lt_of_mem_parts {s t : Schema} {k : Kind} (hs : s.rule.container? = some k)
    (h : t ∈ s.rule.parts) : t.height < s.height := by
  obtain ⟨default?, rule⟩ := s
  rw [height]
  cases rule with
  | array element =>
      rw [List.mem_singleton.mp h, Rule.height]
      exact Nat.lt_succ_self _
  | object fields suggest =>
      rw [Rule.height]
      exact Nat.lt_succ_of_le (height_le_heightOfFields h)
  | objects advice specifics element =>
      rw [Rule.height]
      refine Nat.lt_succ_of_le ?_
      rcases List.mem_cons.mp h with rfl | ht
      · exact Nat.le_max_left _ _
      · exact Nat.le_trans (height_le_heightOfFields ht) (Nat.le_max_right _ _)
  | _ => exact absurd hs (by simp [Rule.container?])

theorem height_le_of_mem_parts {s t : Schema} (h : t ∈ s.rule.parts) : t.height ≤ s.height := by
  cases hs : s.rule.container? with
  | some k => exact Nat.le_of_lt (height_lt_of_mem_parts hs h)
  | none =>
      obtain ⟨default?, rule⟩ := s
      rw [height]
      cases rule with
      | compose first second =>
          rw [Rule.height]
          rcases List.mem_cons.mp h with rfl | ht
          · exact Nat.le_max_left _ _
          · rw [List.mem_singleton.mp ht]
            exact Nat.le_max_right _ _
      | either alternatives =>
          rw [Rule.height]
          exact height_le_heightOfList h
      | deprecated inner notice =>
          rw [List.mem_singleton.mp h]
          exact Nat.le_refl _
      | array element => exact absurd hs (by simp [Rule.container?])
      | object fields suggest => exact absurd hs (by simp [Rule.container?])
      | objects advice specifics element => exact absurd hs (by simp [Rule.container?])
      | _ => exact absurd h List.not_mem_nil

end Schema

end ConfigSchema
