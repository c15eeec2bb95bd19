import ConfigSchema.Proofs.Gives
import ConfigSchema.Proofs.Restrictions

/-!
# `Schema.Completed` — every default has arrived

A schema governs more than the value it is applied to: the element schema of an array governs the elements,
and the schema that is declared for a key governs the value under that key. `Schema.Governs s w t u` says that
`t`, from inside `s`, governs the part `u` of the value `w`.

A value is *completed* if no object in it lacks a key that the schema governing this object declares with a
default. Without a depth limit, whatever a validation leaves is completed, be the outcome ok or not
(`validate_completed`). This covers the defaults that were injected: a schema also governs what stands inside
a default of its own, and a default may well lack keys itself.

Choices and compositions are left out. Which alternative governs a value is not for the schema to say.
-/

namespace ConfigSchema

/-! ## Governing -/

/-- **`t` governs `u`** as a part of `w`, where `s` governs `w`. -/
inductive Schema.Governs : Schema → Value → Schema → Value → Prop
  | here (s : Schema) (w : Value) : Governs s w s w
  /-- The element schema governs every element. -/
  | array {default? element items x t u} (hx : x ∈ items) (h : Governs element x t u) :
      Governs ⟨default?, .array element⟩ (.array items) t u
  /-- A field of a closed object governs what stands under its key. -/
  | object {default? declared suggest fields key x s t u} (hx : (key, x) ∈ fields)
      (hs : declared.lookup key = some s) (h : Governs s x t u) :
      Governs ⟨default?, .object declared suggest⟩ (.object fields) t u
  /-- In an open object the specific for the key governs, or else the element schema. -/
  | objects {default? advice specifics element fields key x t u} (hx : (key, x) ∈ fields)
      (h : Governs ((specifics.lookup key).getD element) x t u) :
      Governs ⟨default?, .objects advice specifics element⟩ (.object fields) t u
  | deprecated {default? inner notice w t u} (h : Governs inner w t u) :
      Governs ⟨default?, .deprecated inner notice⟩ w t u

namespace Schema

variable {base : Nat} {pos : Position} {v w : Value} {default? : Option Value}

/-- **Completed values.** Every object that is governed has all the keys that its own schema declares with a
    default. -/
def Completed (s : Schema) (w : Value) : Prop :=
  ∀ t fields, s.Governs w t (.object fields) →
    ∀ field ∈ t.rule.declared, field.2.default?.isSome → field.1 ∈ Fields.keys fields

/-! ### Rule by rule -/

/-- A schema that governs nothing but the value itself, and declares no key, is content with every value. -/
theorem completed_of_parts_eq_nil {s : Schema} (h : s.rule.parts = []) (w : Value) : s.Completed w := by
  intro t fields hgov field hf _
  have hdeclared : ∀ field ∈ s.rule.declared, False := by
    intro field hf
    have hmem := Rule.mem_parts_of_declared hf
    rw [h] at hmem
    exact List.not_mem_nil hmem
  cases hgov with
  | here => exact (hdeclared field hf).elim
  | array hx _ => exact absurd h (by simp [Rule.parts])
  | object hx hs _ => exact (hdeclared _ (Fields.mem_of_lookup hs)).elim
  | objects hx _ => exact absurd h (by simp [Rule.parts])
  | deprecated _ => exact absurd h (by simp [Rule.parts])

theorem completed_array {element : Schema} {items : List Value} (h : ∀ x ∈ items, element.Completed x) :
    Completed ⟨default?, .array element⟩ (.array items) := by
  intro t fields hgov
  cases hgov with
  | array hx hgov => exact h _ hx t fields hgov

theorem completed_deprecated {inner : Schema} {notice : String} (h : inner.Completed w) :
    Completed ⟨default?, .deprecated inner notice⟩ w := by
  intro t fields hgov
  cases hgov with
  | here => exact fun field hf => absurd hf List.not_mem_nil
  | deprecated hgov => exact h t fields hgov

/-- An object is completed if it has all keys with a default, and what stands under its keys is completed. -/
theorem completed_keyed {rule : Rule} (hrule : rule.IsKeyed) {fields : Fields Value}
    (hkeys : ∀ field ∈ rule.declared, field.2.default?.isSome → field.1 ∈ Fields.keys fields)
    (h : ∀ e ∈ fields, ∀ s, rule.governor? e.1 = some s → s.Completed e.2) :
    Completed ⟨default?, rule⟩ (.object fields) := by
  intro t fields' hgov
  cases hgov with
  | here => exact hkeys
  | object hx hs hgov => exact h _ hx _ hs t fields' hgov
  | objects hx hgov => exact h _ hx _ Option.or_some t fields' hgov
  | deprecated _ => exact absurd hrule id

/-- A container rule has nothing to complete in a value of another kind. -/
theorem completed_of_kind_ne {s : Schema} {k : Kind} (hs : s.rule.container? = some k) (hw : w.kind ≠ k) :
    s.Completed w := by
  intro t fields hgov field hf
  cases hgov with
  | here =>
      -- An object under an array rule: no key is declared.
      obtain ⟨default?, rule⟩ := s
      cases rule with
      | object => exact absurd (Option.some.inj hs) hw
      | objects => exact absurd (Option.some.inj hs) hw
      | _ => exact absurd hf List.not_mem_nil
  | array _ _ => exact absurd (Option.some.inj hs) hw
  | object _ _ _ => exact absurd (Option.some.inj hs) hw
  | objects _ _ => exact absurd (Option.some.inj hs) hw
  | deprecated _ => exact absurd hs (by simp [Rule.container?])

/-! ## Validations complete -/

/-- The entries that were there are completed by their governors, and those that are added by the schemas they
    are declared with, which govern them from then on. -/
theorem gives_completed_keyed {rule : Rule} (hrule : rule.IsKeyed) (hd : (Fields.keys rule.declared).Nodup)
    (hpos : pos.exceeded = false)
    (h : ∀ t ∈ rule.parts, ∀ v, t.Gives base pos.descend v fun r => t.Completed r.value) :
    Gives ⟨default?, rule⟩ base pos v fun r => Completed ⟨default?, rule⟩ r.value := by
  let R : String × Value → Verdict → Prop := fun e r =>
    ∀ s, rule.governor? e.1 = some s → s.Completed r.value
  let A : String × Schema → Value → Prop := fun field a => field.2.Completed a
  refine gives_object (R := R) (A := A) hrule ?_ ?_ ?_ ?_ ?_
  · intro hv
    have hkind := hv.resolve_right (Bool.eq_false_iff.mp hpos)
    exact completed_of_kind_ne (Rule.container?_of_isKeyed hrule) hkind
  · intro e s hs
    refine (h s (Rule.mem_parts_of_governor hs) e.2).mono fun r hr t ht => ?_
    rw [hs, Option.some.injEq] at ht
    exact ht ▸ hr
  · intro e he s hs
    rw [he] at hs
    exact absurd hs.symm (Option.some_ne_none s)
  · intro field hf d _
    exact Gives.fill (h field.2 (Rule.mem_parts_of_declared hf)) fun _ _ hr => hr
  · intro fields _ _ rs added hrs hadded
    refine completed_keyed hrule (fun field hf => mem_keys_completed hrs hadded hf) fun e he s hs => ?_
    rcases List.mem_append.mp he with he | he
    · obtain ⟨r, hr, rfl⟩ := List.mem_map.mp he
      obtain ⟨e, -, hkey, hcompleted⟩ := exists_of_forall₂_right hrs hr
      exact hcompleted s (hkey ▸ hs)
    · obtain ⟨field, hf, hkey, hcompleted⟩ := exists_of_forall₂_right hadded he
      have hgov := Rule.governor?_of_declared hd (Rule.mem_lacking_iff.mp hf).1
      rw [← hkey, hs, Option.some.injEq] at hgov
      exact hgov ▸ hcompleted

/-- What a validation leaves is completed, wherever in an unlimited walk it starts. -/
theorem gives_completed {s : Schema} (hc : s.CustomFree) (hcompose : s.ComposeFree) (heither : s.EitherFree)
    (hd : s.DistinctKeys) (base : Nat) {pos : Position} (hlimits : pos.limits = .unlimited)
    (hdepth : pos.depth ≤ depthCeiling) (v : Value) : s.Gives base pos v fun r => s.Completed r.value := by
  induction s using Schema.induction generalizing pos v with
  | step s ih =>
    obtain ⟨default?, rule⟩ := s
    have hpos : pos.exceeded = false := Position.not_exceeded_unlimited hlimits hdepth
    have hparts : ∀ t ∈ rule.parts, ∀ pos : Position, pos.limits = .unlimited → pos.depth ≤ depthCeiling →
        ∀ v, t.Gives base pos v fun r => t.Completed r.value :=
      fun t ht pos => ih t ht (hc.part ht) (hcompose.part ht) (heither.part ht) (hd.part ht)
    have hbelow : ∀ t ∈ rule.parts, ∀ v, t.Gives base pos.descend v fun r => t.Completed r.value :=
      fun t ht => hparts t ht pos.descend hlimits pos.descend_depth_le
    cases rule with
    | any => exact gives_any (completed_of_parts_eq_nil rfl _)
    | kind k => exact gives_kind (completed_of_parts_eq_nil rfl _)
    | int => exact gives_int (completed_of_parts_eq_nil rfl _)
    | oneOf literals => exact gives_oneOf (completed_of_parts_eq_nil rfl _)
    | array element =>
        refine gives_array (fun hv => ?_) (hbelow element List.mem_cons_self) ?_
        · exact completed_of_kind_ne rfl (hv.resolve_right (Bool.eq_false_iff.mp hpos))
        · intro items _ _ rs hrs
          refine completed_array fun x hx => ?_
          obtain ⟨r, hr, rfl⟩ := List.mem_map.mp hx
          obtain ⟨-, -, hcompleted⟩ := exists_of_forall₂_right hrs hr
          exact hcompleted
    | object fields suggest => exact gives_completed_keyed trivial hd.here hpos hbelow
    | objects advice specifics element => exact gives_completed_keyed trivial hd.here hpos hbelow
    | deprecated inner notice =>
        have hinner := hparts inner List.mem_cons_self pos hlimits hdepth v
        exact gives_deprecated (hinner.mono fun _ hr => completed_deprecated hr)
    | compose first second => exact absurd hcompose.here id
    | either alternatives => exact absurd heither.here id
    | custom name check => exact absurd hc.here id

/-- **Injection is complete.** Without a depth limit, a validation with a schema that is free of choices and
    compositions leaves no governed object without a key that is declared with a default, whether the outcome
    is ok or not. -/
theorem validate_completed {s : Schema} (hc : s.CustomFree) (hcompose : s.ComposeFree)
    (heither : s.EitherFree) (hd : s.DistinctKeys) (v : Value) (next : Nat) :
    s.Completed ((s.validate .unlimited v).start next).result.value := by
  have hgives : s.Gives 0 (.root .unlimited) v fun r => s.Completed r.value :=
    gives_completed hc hcompose heither hd 0 rfl (Nat.zero_le _) v
  exact (hgives next (Nat.zero_le next)).1

/-- The missing server comes with a default that lacks a port itself, and its sibling fails. -/
theorem validate_completed_server :
    let server := object [("port", string.withDefault (.string "http"))]
    let s := object [("name", string), ("server", server.withDefault (.object []))]
    let v := Value.object [("name", .null)]
    let completed := Value.object [("name", .null), ("server", .object [("port", .string "http")])]
    s.CustomFree ∧ s.ComposeFree ∧ s.EitherFree ∧ s.DistinctKeys ∧
      ((s.validate .unlimited v).start 0).result.outcome.isOk = false ∧
      ((s.validate .unlimited v).start 0).result.value = completed ∧ s.Completed completed := by
  intro server s v completed
  have hc : s.CustomFree := by decide
  have hcompose : s.ComposeFree := by decide
  have heither : s.EitherFree := by decide
  have hd : s.DistinctKeys := by decide
  have hvalue : ((s.validate .unlimited v).start 0).result.value = completed := rfl
  exact ⟨hc, hcompose, heither, hd, rfl, hvalue, hvalue ▸ validate_completed hc hcompose heither hd v 0⟩

end Schema

end ConfigSchema
