import ConfigSchema.Proofs.Parts

/-!
# `Schema.Everywhere` — restrictions on schemas

`Schema.Everywhere p` asks the condition `p` of the rule of a schema and of every rule inside it. The
restrictions under which results about validation hold are all of this form:

* `CustomFree`, `ComposeFree`, `EitherFree` — a kind of rule does not occur;
* `InjectionFree` — there is nothing to inject;
* `PlainChoices`, `OneInjector` — choices and compositions do not interfere with injections;
* `DistinctKeys` — the declared keys of every object rule are distinct, as keys of a map are.

All of them are decidable.
-/

namespace ConfigSchema

/-! ## Conditions on every rule -/

mutual

/-- Every rule in the schema, its own and those of the schemas inside, satisfies `p`. -/
def Schema.Everywhere (p : Rule → Prop) : Schema → Prop
  | ⟨_, rule⟩ => rule.Everywhere p

/-- The rule and those of the schemas inside satisfy `p`. -/
def Rule.Everywhere (p : Rule → Prop) : Rule → Prop
  | .compose first second => p (.compose first second) ∧ first.Everywhere p ∧ second.Everywhere p
  | .array element => p (.array element) ∧ element.Everywhere p
  | .object fields suggest => p (.object fields suggest) ∧ Schema.EverywhereInFields p fields
  | .objects advice specifics element =>
      p (.objects advice specifics element) ∧ element.Everywhere p ∧ Schema.EverywhereInFields p specifics
  | .either alternatives => p (.either alternatives) ∧ Schema.EverywhereInList p alternatives
  | .deprecated inner notice => p (.deprecated inner notice) ∧ inner.Everywhere p
  | rule => p rule

/-- Every rule in the schemas of the fields satisfies `p`. -/
def Schema.EverywhereInFields (p : Rule → Prop) : List (String × Schema) → Prop
  | [] => True
  | (_, s) :: rest => s.Everywhere p ∧ Schema.EverywhereInFields p rest

/-- Every rule in the schemas satisfies `p`. -/
def Schema.EverywhereInList (p : Rule → Prop) : List Schema → Prop
  | [] => True
  | s :: rest => s.Everywhere p ∧ Schema.EverywhereInList p rest

end

namespace Schema

theorem everywhereInFields_iff {p : Rule → Prop} {fields : Fields Schema} :
    EverywhereInFields p fields ↔ ∀ t ∈ fields.map Prod.snd, t.Everywhere p := by
  induction fields with
  | nil => simp [EverywhereInFields]
  | cons field rest ih =>
      obtain ⟨key, s⟩ := field
      simp [EverywhereInFields, ih]

theorem everywhereInList_iff {p : Rule → Prop} {schemas : List Schema} :
    EverywhereInList p schemas ↔ ∀ t ∈ schemas, t.Everywhere p := by
  induction schemas with
  | nil => simp [EverywhereInList]
  | cons s rest ih => simp [EverywhereInList, ih]

/-- A condition holds everywhere in a schema if it holds of its rule and everywhere in its parts. -/
theorem everywhere_iff {p : Rule → Prop} {s : Schema} :
    s.Everywhere p ↔ p s.rule ∧ ∀ t ∈ s.rule.parts, t.Everywhere p := by
  obtain ⟨default?, rule⟩ := s
  cases rule <;>
    simp [Everywhere, Rule.Everywhere, Rule.parts, everywhereInFields_iff, everywhereInList_iff]

theorem everywhere_of_forall {p : Rule → Prop} (s : Schema) (h : ∀ rule, p rule) : s.Everywhere p := by
  induction s using Schema.induction with
  | step s ih => exact everywhere_iff.mpr ⟨h s.rule, ih⟩

namespace Everywhere

variable {p q : Rule → Prop} {s : Schema}

theorem here (h : s.Everywhere p) : p s.rule := (everywhere_iff.mp h).1

theorem part (h : s.Everywhere p) {t : Schema} (ht : t ∈ s.rule.parts) : t.Everywhere p :=
  (everywhere_iff.mp h).2 t ht

/-- The own default of a schema is not looked at. -/
theorem congr {t : Schema} (h : s.Everywhere p) (hrule : t.rule = s.rule) : t.Everywhere p := by
  rw [everywhere_iff, hrule, ← everywhere_iff]
  exact h

theorem mono (h : s.Everywhere p) (hpq : ∀ rule, p rule → q rule) : s.Everywhere q := by
  induction s using Schema.induction with
  | step s ih => exact everywhere_iff.mpr ⟨hpq _ h.here, fun t ht => ih t ht (h.part ht)⟩

theorem and (hp : s.Everywhere p) (hq : s.Everywhere q) : s.Everywhere fun rule => p rule ∧ q rule := by
  induction s using Schema.induction with
  | step s ih => exact everywhere_iff.mpr ⟨⟨hp.here, hq.here⟩, fun t ht => ih t ht (hp.part ht) (hq.part ht)⟩

end Everywhere

/-- What holds everywhere in a schema holds everywhere in the schemas that stand in it. -/
theorem Everywhere.within {p : Rule → Prop} {s t : Schema} (h : s.Everywhere p) (ht : t.Within s) :
    t.Everywhere p := by
  induction ht with
  | refl => exact h
  | part hpart _ ih => exact ih (h.part hpart)

/-- Everywhere in a schema is in every schema that stands in it. -/
theorem everywhere_iff_within {p : Rule → Prop} {s : Schema} :
    s.Everywhere p ↔ ∀ t : Schema, t.Within s → p t.rule := by
  constructor
  · exact fun h t ht => (h.within ht).here
  · intro h
    induction s using Schema.induction with
    | step s ih =>
        refine everywhere_iff.mpr ⟨h s (.refl s), fun t ht => ih t ht fun u hu => ?_⟩
        exact h u (.part ht hu)

end Schema

mutual

/-- A condition that is decidable of a rule is decidable of all rules in a schema. -/
def Schema.decideEverywhere (p : Rule → Prop) [DecidablePred p] : ∀ s : Schema, Decidable (s.Everywhere p)
  | ⟨_, rule⟩ => rule.decideEverywhere p

/-- Decides a condition of the rule and of those inside it. -/
def Rule.decideEverywhere (p : Rule → Prop) [DecidablePred p] : ∀ rule : Rule, Decidable (rule.Everywhere p)
  | .compose first second =>
      have := first.decideEverywhere p
      have := second.decideEverywhere p
      inferInstanceAs (Decidable (p (.compose first second) ∧ first.Everywhere p ∧ second.Everywhere p))
  | .array element =>
      have := element.decideEverywhere p
      inferInstanceAs (Decidable (p (.array element) ∧ element.Everywhere p))
  | .object fields suggest =>
      have := Schema.decideEverywhereInFields p fields
      inferInstanceAs (Decidable (p (.object fields suggest) ∧ Schema.EverywhereInFields p fields))
  | .objects advice specifics element =>
      have := element.decideEverywhere p
      have := Schema.decideEverywhereInFields p specifics
      inferInstanceAs (Decidable (p (.objects advice specifics element) ∧ element.Everywhere p ∧
        Schema.EverywhereInFields p specifics))
  | .either alternatives =>
      have := Schema.decideEverywhereInList p alternatives
      inferInstanceAs (Decidable (p (.either alternatives) ∧ Schema.EverywhereInList p alternatives))
  | .deprecated inner notice =>
      have := inner.decideEverywhere p
      inferInstanceAs (Decidable (p (.deprecated inner notice) ∧ inner.Everywhere p))
  | .any => inferInstanceAs (Decidable (p .any))
  | .kind k => inferInstanceAs (Decidable (p (.kind k)))
  | .int => inferInstanceAs (Decidable (p .int))
  | .oneOf literals => inferInstanceAs (Decidable (p (.oneOf literals)))
  | .custom name check => inferInstanceAs (Decidable (p (.custom name check)))

/-- Decides a condition of the rules in the fields. -/
def Schema.decideEverywhereInFields (p : Rule → Prop) [DecidablePred p] :
    ∀ fields : List (String × Schema), Decidable (Schema.EverywhereInFields p fields)
  | [] => .isTrue trivial
  | (_, s) :: rest =>
      have := s.decideEverywhere p
      have := Schema.decideEverywhereInFields p rest
      inferInstanceAs (Decidable (s.Everywhere p ∧ Schema.EverywhereInFields p rest))

/-- Decides a condition of the rules in the schemas. -/
def Schema.decideEverywhereInList (p : Rule → Prop) [DecidablePred p] :
    ∀ schemas : List Schema, Decidable (Schema.EverywhereInList p schemas)
  | [] => .isTrue trivial
  | s :: rest =>
      have := s.decideEverywhere p
      have := Schema.decideEverywhereInList p rest
      inferInstanceAs (Decidable (s.Everywhere p ∧ Schema.EverywhereInList p rest))

end

namespace Schema

instance (p : Rule → Prop) [DecidablePred p] : DecidablePred (Everywhere p) := decideEverywhere p

/-! ## The restrictions -/

/-- No custom check occurs in the schema. -/
def CustomFree : Schema → Prop :=
  Everywhere fun
    | .custom .. => False
    | _ => True

/-- No composition occurs in the schema. -/
def ComposeFree : Schema → Prop :=
  Everywhere fun
    | .compose .. => False
    | _ => True

/-- No choice between alternatives occurs in the schema. -/
def EitherFree : Schema → Prop :=
  Everywhere fun
    | .either _ => False
    | _ => True

/-- No schema in it declares a key twice. The declared keys are those of a map, so this holds of all schemas
    whose fields were written as one (`Fields.nodup_keys_ofList`). -/
def DistinctKeys : Schema → Prop :=
  Everywhere fun rule => (Fields.keys rule.declared).Nodup

/-- No declared key, anywhere in the schema, carries a default. So there is nothing to inject. -/
def InjectionFree : Schema → Prop :=
  Everywhere fun rule => ∀ field ∈ rule.declared, field.2.default? = none

/-- Whatever is decided before a check ends is decided without injecting: the alternatives of a choice and
    the first part of a composition are injection-free. -/
def PlainChoices : Schema → Prop :=
  Everywhere fun
    | .either alternatives => ∀ t ∈ alternatives, t.InjectionFree
    | .compose first _ => first.InjectionFree
    | _ => True

/-- Of the alternatives of a choice at most one can inject, and so of the parts of a composition. -/
def OneInjector : Schema → Prop :=
  Everywhere fun
    | .either alternatives => alternatives.Pairwise fun s t => s.InjectionFree ∨ t.InjectionFree
    | .compose first second => first.InjectionFree ∨ second.InjectionFree
    | _ => True

section Decidable

instance : DecidablePred CustomFree :=
  @decideEverywhere _ fun
    | .custom .. => .isFalse id
    | .any | .kind _ | .int | .compose .. | .array _ | .object .. | .objects .. | .either _ | .oneOf _
    | .deprecated .. => .isTrue trivial

instance : DecidablePred ComposeFree :=
  @decideEverywhere _ fun
    | .compose .. => .isFalse id
    | .any | .kind _ | .int | .custom .. | .array _ | .object .. | .objects .. | .either _ | .oneOf _
    | .deprecated .. => .isTrue trivial

instance : DecidablePred EitherFree :=
  @decideEverywhere _ fun
    | .either _ => .isFalse id
    | .any | .kind _ | .int | .custom .. | .compose .. | .array _ | .object .. | .objects .. | .oneOf _
    | .deprecated .. => .isTrue trivial

instance : DecidablePred DistinctKeys :=
  inferInstanceAs (DecidablePred (Everywhere fun rule => (Fields.keys rule.declared).Nodup))

instance : DecidablePred InjectionFree :=
  inferInstanceAs (DecidablePred (Everywhere fun rule => ∀ field ∈ rule.declared, field.2.default? = none))

instance : DecidablePred PlainChoices :=
  @decideEverywhere _ fun
    | .either alternatives => inferInstanceAs (Decidable (∀ t ∈ alternatives, t.InjectionFree))
    | .compose first _ => inferInstanceAs (Decidable first.InjectionFree)
    | .any | .kind _ | .int | .custom .. | .array _ | .object .. | .objects .. | .oneOf _
    | .deprecated .. => .isTrue trivial

instance : DecidablePred OneInjector :=
  @decideEverywhere _ fun
    | .either alternatives =>
        inferInstanceAs (Decidable (alternatives.Pairwise fun s t => s.InjectionFree ∨ t.InjectionFree))
    | .compose first second => inferInstanceAs (Decidable (first.InjectionFree ∨ second.InjectionFree))
    | .any | .kind _ | .int | .custom .. | .array _ | .object .. | .objects .. | .oneOf _
    | .deprecated .. => .isTrue trivial

end Decidable

/-- An injection-free schema has nothing that could inject too early. -/
theorem InjectionFree.plainChoices {s : Schema} (h : s.InjectionFree) : s.PlainChoices := by
  induction s using Schema.induction with
  | step s ih =>
      refine everywhere_iff.mpr ⟨?_, fun t ht => ih t ht (h.part ht)⟩
      obtain ⟨default?, rule⟩ := s
      cases rule with
      | compose first second => exact h.part List.mem_cons_self
      | either alternatives => exact fun t ht => h.part ht
      | _ => trivial

end Schema

end ConfigSchema
