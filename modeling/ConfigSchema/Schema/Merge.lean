import ConfigSchema.Schema.Basic

/-!
# `Schema.Merge` — extending one object schema by another

Two object schemas with declared keys are merged into one over all keys of both: the keys of the first in
their order, then those that only the second has. A key of one side keeps its schema. For a key of both,
nested object schemas are merged in turn; any other pair of schemas must agree in name, and then the second
one counts. Where both sides declare a key, its default is the second's, or else the first's.

Merging is about schemas and never touches data. It logs each settled key; the events of a merge that fails
are those of the keys settled before.

## Contents
- `MergeOptions` and `MergeError`, with its message.
- `Logged`, a result that may be an error, with the events that led to it.
- `Schema.mergeLogged`, and `Schema.merge`, its result.
-/

namespace ConfigSchema

/-- How a merge treats defaults. -/
structure MergeOptions where
  /-- Drop the defaults of keys that only the first schema declares. -/
  ignoreFirstDefaults : Bool
deriving DecidableEq

/-- The options of a merge that states none. -/
def MergeOptions.standard : MergeOptions := ⟨false⟩

/-! ## Errors -/

/-- Why two schemas cannot be merged. -/
inductive MergeError where
  /-- One of the two is no object schema with declared keys. -/
  | unmergeable (left right : String)
  /-- Both declare `key`, with schemas of different names that cannot be merged either. -/
  | conflict (key left right : String)
deriving DecidableEq

namespace MergeError

/-- The key that the error is about. -/
def key? : MergeError → Option String
  | unmergeable .. => none
  | conflict key _ _ => some key

/-- The wording of an error. -/
def message : MergeError → String
  | unmergeable left right => "can't merge " ++ left ++ " and " ++ right
  | conflict key left right =>
      "can't merge schemas for key '" ++ key ++ "' (" ++ left ++ " and " ++ right ++ ")"

end MergeError

/-! ## Logged results -/

/-- A result or an error, with the events on the way to it. -/
structure Logged (α : Type) where
  events : List Event
  result : Except MergeError α

namespace Logged

variable {α β : Type}

instance : Monad Logged where
  pure a := ⟨[], .ok a⟩
  bind first f :=
    match first.result with
    | .error e => ⟨first.events, .error e⟩
    | .ok a => ⟨first.events ++ (f a).events, (f a).result⟩

/-- An error, without events of its own. -/
def fail (e : MergeError) : Logged α := ⟨[], .error e⟩

/-- One event. -/
def log (event : Event) : Logged Unit := ⟨[event], .ok ()⟩

@[simp] theorem result_pure (a : α) : (pure a : Logged α).result = .ok a := rfl

@[simp] theorem result_fail (e : MergeError) : (fail e : Logged α).result = .error e := rfl

@[simp] theorem result_log (event : Event) : (log event).result = .ok () := rfl

theorem result_bind (first : Logged α) (f : α → Logged β) :
    (first >>= f).result = first.result.bind fun a => (f a).result := by
  show (match first.result with
    | .error e => (⟨first.events, .error e⟩ : Logged β)
    | .ok a => ⟨first.events ++ (f a).events, (f a).result⟩).result = _
  cases first.result <;> rfl

theorem result_map (f : α → β) (first : Logged α) :
    (f <$> first).result = first.result.map f := by
  show (first >>= fun a => pure (f a)).result = _
  rw [result_bind]
  cases first.result <;> rfl

end Logged

/-! ## Merging -/

namespace Schema

/-- The declared keys of a schema that can be merged: it must be called an object and show such keys. -/
def mergeable? (s : Schema) : Option ClosedKeys :=
  if s.name = Kind.object.name then s.closedKeys? else none

/-- `merged` with the default of a key that both sides declare. -/
def inheritDefault (first second merged : Schema) : Schema :=
  match second.default?.or first.default? with
  | some default => merged.withDefault default
  | none => merged

/-- The keys that only the second side declares are settled as they are. -/
def onlySecond (left right : Fields Schema) : Logged (Fields Schema) :=
  let added := right.filter fun e => !left.has e.1
  ⟨added.map fun e => .merged e.1 e.2.name, .ok added⟩

end Schema

mutual

/-- The merge of two schemas that can both be merged. -/
def Schema.mergeObjects? (options : MergeOptions) : Schema → Schema → Option (Logged Schema)
  | ⟨_, rule⟩, b =>
    if rule.name = Kind.object.name then
      b.mergeable?.bind fun right => (rule.mergeKeys? options right.fields).map (Schema.object <$> ·)
    else none
termination_by structural a => a

/-- The keys that a schema shows, merged with those of the second side. -/
def Schema.mergeKeys? (options : MergeOptions) (right : Fields Schema) :
    Schema → Option (Logged (Fields Schema))
  | ⟨_, rule⟩ => rule.mergeKeys? options right
termination_by structural s => s

/-- The keys that a schema with this rule shows, merged with those of the second side. -/
def Rule.mergeKeys? (options : MergeOptions) (right : Fields Schema) :
    Rule → Option (Logged (Fields Schema))
  | .object left _ => some do
      let settled ← Schema.mergeFields options right left
      let added ← Schema.onlySecond left right
      pure (settled ++ added)
  | .compose _ second => second.mergeKeys? options right
  | _ => none
termination_by structural rule => rule

/-- The keys of the first side, each settled with what the second side declares for it. -/
def Schema.mergeFields (options : MergeOptions) (right : Fields Schema) :
    List (String × Schema) → Logged (Fields Schema)
  | [] => pure []
  | (key, first) :: rest => do
      let settled ←
        match right.lookup key with
        | none => pure (if options.ignoreFirstDefaults then first.withoutDefault else first)
        | some second =>
          Schema.inheritDefault first second <$>
            match first.mergeObjects? options second with
            | some merging => merging
            | none =>
              if first.name = second.name then pure second
              else Logged.fail (.conflict key first.name second.name)
      Logged.log (.merged key settled.name)
      let others ← Schema.mergeFields options right rest
      pure ((key, settled) :: others)
termination_by structural left => left

end

namespace Schema

/-- The declared keys of both sides, merged: those of `left` settled with `right`, then the others. -/
def mergeBoth (options : MergeOptions) (right : Fields Schema) (left : ClosedKeys) :
    Logged (Fields Schema) := do
  let settled ← mergeFields options right left.fields
  let added ← onlySecond left.fields right
  pure (settled ++ added)

end Schema

mutual

/-- A schema has keys to merge exactly if it shows declared keys. -/
theorem Schema.mergeKeys?_eq (options : MergeOptions) (right : Fields Schema) :
    ∀ s : Schema, s.mergeKeys? options right = s.closedKeys?.map (Schema.mergeBoth options right)
  | ⟨_, rule⟩ => by
      rw [Schema.mergeKeys?, Schema.closedKeys?]
      exact Rule.mergeKeys?_eq options right rule
termination_by structural s => s

theorem Rule.mergeKeys?_eq (options : MergeOptions) (right : Fields Schema) :
    ∀ rule : Rule,
      rule.mergeKeys? options right = rule.closedKeys?.map (Schema.mergeBoth options right)
  | .compose _ second => by
      rw [Rule.mergeKeys?, Rule.closedKeys?]
      exact Schema.mergeKeys?_eq options right second
  | .object .. => rfl
  | .any | .kind _ | .int | .array _ | .objects .. | .either _ | .oneOf _ | .deprecated .. | .custom .. =>
      rfl
termination_by structural rule => rule

end

namespace Schema

/-- Two schemas merge as objects exactly if both can be merged, and then their keys are merged. -/
theorem mergeObjects?_eq (options : MergeOptions) (a b : Schema) :
    a.mergeObjects? options b =
      a.mergeable?.bind fun left => b.mergeable?.map fun right =>
        object <$> mergeBoth options right.fields left := by
  obtain ⟨default?, rule⟩ := a
  by_cases h : rule.name = Kind.object.name
  · have ha : mergeable? ⟨default?, rule⟩ = rule.closedKeys? := by
      simp [mergeable?, name, closedKeys?, h]
    rw [ha, mergeObjects?, if_pos h]
    cases b.mergeable? <;> cases hk : rule.closedKeys? <;> simp [Rule.mergeKeys?_eq, hk]
  · simp [mergeObjects?, mergeable?, name, h]

/-- Merges `a` with `b`, logging each settled key. -/
def mergeLogged (options : MergeOptions) (a b : Schema) : Logged Schema :=
  (a.mergeObjects? options b).getD (Logged.fail (.unmergeable a.name b.name))

/-- The merge of `a` with `b`. -/
def merge (options : MergeOptions) (a b : Schema) : Except MergeError Schema :=
  (mergeLogged options a b).result

end Schema

end ConfigSchema
