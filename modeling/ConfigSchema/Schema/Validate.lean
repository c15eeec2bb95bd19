import ConfigSchema.Schema.Basic

/-!
# `Schema.Validate` — validating a value against a schema

`Schema.check` gives each rule its checker, by recursion on the schema. `Schema.validate` runs it from the
root of a value under given limits.

A value of the wrong kind is refused by the name of the schema; in particular a choice that fails reports
itself, and not what its alternatives found.
-/

namespace ConfigSchema

open Checker

mutual

/-- The checker of a schema. Its default plays no part. -/
def Schema.check : Schema → Checker
  | ⟨_, rule⟩ => rule.check

/-- The checker of a rule. -/
def Rule.check : Rule → Checker
  | .any => accept
  | .kind k => ofKind k k.name
  | .int => ofKind .number "int"
  | .compose first second => andThen first.check second.check
  | .array element => elements element.check
  | .object fields suggest =>
      let slots := Schema.slots fields
      entries (closedKeys slots suggest) slots
  | .objects advice specifics element =>
      let slots := Schema.slots specifics
      entries (openKeys advice.warning? slots element.check) slots
  | .either alternatives =>
      firstOf (alternativesName (Schema.names alternatives)) (Schema.checks alternatives)
  | .oneOf literals => literal literals (literalsName literals)
  | .deprecated inner notice => advising notice inner.check
  | .custom _ check => fun pos v => check pos.remaining v

/-- The declared keys with their checkers. -/
def Schema.slots : List (String × Schema) → List Slot
  | [] => []
  | (key, ⟨default?, rule⟩) :: rest => ⟨key, rule.name, default?, rule.check⟩ :: Schema.slots rest

/-- The checkers of some schemas, in order. -/
def Schema.checks : List Schema → List Checker
  | [] => []
  | s :: rest => s.check :: Schema.checks rest

end

theorem Schema.check_eq (s : Schema) : s.check = s.rule.check := by
  cases s
  simp [Schema.check]

theorem Schema.checks_eq_map (schemas : List Schema) :
    Schema.checks schemas = schemas.map Schema.check := by
  induction schemas with
  | nil => rfl
  | cons s rest ih => simp [Schema.checks, ih]

theorem Schema.slots_eq_map (fields : List (String × Schema)) :
    Schema.slots fields = fields.map fun p => ⟨p.1, p.2.name, p.2.default?, p.2.check⟩ := by
  induction fields with
  | nil => rfl
  | cons p rest ih =>
      obtain ⟨key, s⟩ := p
      cases s
      simp [Schema.slots, Schema.name, Schema.check, ih]

namespace Schema

/-- Validates a value from its root. -/
def validate (s : Schema) (limits : Limits) (v : Value) : Run Checked := s.check (Position.root limits) v

end Schema

end ConfigSchema
