import ConfigSchema.Limits
import ConfigSchema.Outcome.Basic
import ConfigSchema.Suggestion
import ConfigSchema.Value.Copy

/-!
# `Checker` — judging a value, and completing it

A checker looks at a value from a position in a validation. It answers an outcome and the value as it is
afterwards, in which missing keys may have been filled with defaults. Schemas are given their meaning by the
combinators of this module.

Containers are only entered within the depth limit. The items of a container are checked in order, one level
further down; the defaults of an object are injected after its own entries.

## Contents
- Scalars: `accept`, `reject`, `ofKind`, `literal`.
- Combination: `andThen`, `firstOf`, `advising`.
- Containers: `elements` for arrays, `entries` for objects, and the two readings of an object's keys,
  `closedKeys` and `openKeys`.
-/

namespace ConfigSchema

/-- The outcome for a value, and the value afterwards. -/
structure Checked where
  outcome : Outcome
  value : Value

/-- A check of a value at a position. -/
abbrev Checker := Position → Value → Run Checked

namespace Checker

/-! ## Scalars -/

/-- Accepts every value. -/
def accept : Checker := fun _ v => pure ⟨.pass, v⟩

/-- Refuses every value, for not being what was expected. -/
def reject (expected : String) : Checker := fun _ v => pure ⟨.mismatch expected v, v⟩

/-- Accepts the values of one kind. -/
def ofKind (k : Kind) (expected : String) : Checker := fun pos v =>
  if v.kind = k then accept pos v else reject expected pos v

/-- Accepts the values that strictly equal one of the literals. -/
def literal (literals : List Value) (expected : String) : Checker := fun pos v =>
  if literals.any fun l => l.strictEq v then accept pos v else reject expected pos v

/-! ## Combination -/

/-- Both in turn. If the first fails, its outcome stands and the second does not run. -/
def andThen (first second : Checker) : Checker := fun pos v => do
  let checked ← first pos v
  if checked.outcome.isOk then second pos checked.value else pure checked

/-- The first alternative that passes. Each one sees the value as the failed ones before it left it. -/
def firstOf (expected : String) : List Checker → Checker
  | [] => reject expected
  | alternative :: rest => fun pos v => do
      let checked ← alternative pos v
      if checked.outcome.isOk then pure checked else firstOf expected rest pos checked.value

/-- Adds a warning to whatever the outcome is. -/
def advising (warning : String) (check : Checker) : Checker := fun pos v => do
  let checked ← check pos v
  pure { checked with outcome := checked.outcome.appendWarning warning }

/-! ## Containers -/

/-- Refuses a container that lies too deep. -/
def tooDeep : Checker := fun pos v => do
  Run.log (.tooDeep pos.depth pos.limits.maxDepth)
  reject ("nesting depth of at most " ++ toString pos.limits.maxDepth) pos v

/-- Accepts the arrays all of whose elements pass. -/
def elements (element : Checker) : Checker := fun pos v =>
  match v with
  | .array items =>
    if pos.exceeded then tooDeep pos v else do
      let results ← items.mapM (element pos.descend)
      pure
        ⟨.collection (results.mapIdx fun i r => (.index i, r.outcome)), .array (results.map (·.value))⟩
  | v => reject Kind.array.name pos v

/-- A declared key: the name of its schema, the default for when it is missing, and its check. -/
structure Slot where
  key : String
  name : String
  default? : Option Value
  check : Checker

namespace Slot

/-- The slot of a key. -/
def find? (slots : List Slot) (key : String) : Option Slot := slots.find? fun slot => slot.key = key

/-- The slots whose keys are missing from `fields`, with the defaults to be injected. -/
def missing (slots : List Slot) (fields : Fields Value) : List (Slot × Value) :=
  slots.filterMap fun slot =>
    if fields.has slot.key then none else slot.default?.map fun default => (slot, default)

/-- The entry to add for a missing key: a copy of its default. The copy is checked, so that defaults nested
    inside it are injected too; the outcome of that check is of no interest. -/
def inject (pos : Position) (slot : Slot) (default : Value) : Run (String × Value) := do
  Run.log (.injected slot.key slot.name)
  let copy ← default.deepCopy
  let checked ← slot.check pos copy
  pure (slot.key, checked.value)

end Slot

/-- Accepts the objects all of whose entries pass the check for their key, and adds the missing keys of
    `slots`. -/
def entries (checkOf : String → Checker) (slots : List Slot) : Checker := fun pos v =>
  match v with
  | .object fields =>
    if pos.exceeded then tooDeep pos v else do
      let results ← fields.mapM fun e => Prod.mk e.1 <$> checkOf e.1 pos.descend e.2
      let added ← (Slot.missing slots fields).mapM fun m => m.1.inject pos.descend m.2
      pure
        ⟨.collection (results.map fun r => (.key r.1, r.2.outcome)),
          .object (results.map (fun r => (r.1, r.2.value)) ++ added)⟩
  | v => reject Kind.object.name pos v

/-! ## The keys of an object -/

/-- Passes the entry of an undeclared key, with a hint at declared keys that resemble it. -/
def undeclared (suggest : Bool) (declared : List String) (key : String) : Checker :=
  match if suggest then Suggestion.hint? (Suggestion.closest key declared) else none with
  | none => accept
  | some hint => advising hint accept

/-- Declared keys have their own check, any other key passes. -/
def closedKeys (slots : List Slot) (suggest : Bool) (key : String) : Checker :=
  match Slot.find? slots key with
  | some slot => slot.check
  | none => undeclared suggest (slots.map (·.key)) key

/-- Keys with a check of their own use that, the others share `element`. A key may earn a warning. -/
def openKeys (warning? : String → Option String) (slots : List Slot) (element : Checker)
    (key : String) : Checker :=
  let check := ((Slot.find? slots key).map (·.check)).getD element
  match warning? key with
  | none => check
  | some warning => advising warning check

end Checker

end ConfigSchema
