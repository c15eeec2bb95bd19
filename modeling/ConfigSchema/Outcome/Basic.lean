import ConfigSchema.Segment
import ConfigSchema.Value.Equality

/-!
# `Outcome` — what a validation found

An outcome is a tree. A leaf says that a value passed or failed; an inner node lists the outcomes of a
container's items under their segments. The verdict `isOk` looks at the leaves alone: every node may carry a
warning, and no warning changes a verdict.
-/

namespace ConfigSchema

/-- What a validation found about a value and, for a container, about its items. -/
inductive Outcome where
  /-- The value is accepted. -/
  | passed (warning : Option String)
  /-- The value is refused, for not being what was expected. -/
  | failed (expected : String) (actual : Value) (warning : Option String)
  /-- The items of a container, in order. -/
  | items (entries : List (Segment × Outcome)) (warning : Option String)

namespace Outcome

/-! ## Building -/

/-- An acceptance without a warning. -/
def pass : Outcome := passed none

/-- A refusal without a warning. -/
def mismatch (expected : String) (actual : Value) : Outcome := failed expected actual none

/-- The items of a container, without a warning. -/
def collection (entries : List (Segment × Outcome)) : Outcome := items entries none

/-! ## Verdict -/

mutual

/-- Does the whole tree hold no failure? -/
def isOk : Outcome → Bool
  | passed _ => true
  | failed .. => false
  | items entries _ => allOk entries

/-- Are all items ok? -/
def allOk : List (Segment × Outcome) → Bool
  | [] => true
  | (_, outcome) :: rest => isOk outcome && allOk rest

end

theorem allOk_eq_all (entries : List (Segment × Outcome)) :
    allOk entries = entries.all fun e => isOk e.2 := by
  induction entries with
  | nil => rfl
  | cons e rest ih =>
      obtain ⟨segment, outcome⟩ := e
      simp [allOk, ih]

theorem isOk_items_iff {entries : List (Segment × Outcome)} {warning : Option String} :
    isOk (items entries warning) = true ↔ ∀ e ∈ entries, isOk e.2 = true := by
  simp [isOk, allOk_eq_all]

/-! ## Parts -/

/-- The warning of the root. -/
def warning? : Outcome → Option String
  | passed warning => warning
  | failed _ _ warning => warning
  | items _ warning => warning

/-- The items of a container; a leaf has none. -/
def entries : Outcome → List (Segment × Outcome)
  | items entries _ => entries
  | _ => []

/-- Does the outcome list items, be it none at all? -/
def isCollection : Outcome → Bool
  | items .. => true
  | _ => false

/-- The first item under a segment. -/
def item? (outcome : Outcome) (segment : Segment) : Option Outcome := outcome.entries.lookup segment

/-- What a failed leaf expected. -/
def expected? : Outcome → Option String
  | failed expected _ _ => some expected
  | _ => none

/-! ## Warnings -/

/-- Replaces the warning. -/
def setWarning (warning : Option String) : Outcome → Outcome
  | passed _ => passed warning
  | failed expected actual _ => failed expected actual warning
  | items entries _ => items entries warning

/-- Puts a warning in place of the present one. -/
def withWarning (text : String) (outcome : Outcome) : Outcome := outcome.setWarning (some text)

/-- Adds `text` behind the present warning. An empty warning counts as none. -/
def joinWarning (text : String) : Option String → String
  | none => text
  | some present => if present = "" then text else present ++ "; " ++ text

/-- Adds a warning to the present one. -/
def appendWarning (text : String) (outcome : Outcome) : Outcome :=
  outcome.withWarning (joinWarning text outcome.warning?)

@[simp] theorem isOk_setWarning (warning : Option String) (outcome : Outcome) :
    (outcome.setWarning warning).isOk = outcome.isOk := by
  cases outcome <;> simp [setWarning, isOk]

@[simp] theorem isOk_appendWarning (text : String) (outcome : Outcome) :
    (outcome.appendWarning text).isOk = outcome.isOk := isOk_setWarning _ _

@[simp] theorem warning?_setWarning (warning : Option String) (outcome : Outcome) :
    (outcome.setWarning warning).warning? = warning := by
  cases outcome <;> rfl

/-! ## Equality -/

mutual

/-- Equality of trees, the refused values being compared loosely. -/
def beq : Outcome → Outcome → Bool
  | passed w, passed w' => w = w'
  | failed expected actual w, failed expected' actual' w' =>
      expected = expected' && actual.beq actual' && w = w'
  | items entries w, items entries' w' => beqEntries entries entries' && w = w'
  | _, _ => false

/-- Equality of items, in order. -/
def beqEntries : List (Segment × Outcome) → List (Segment × Outcome) → Bool
  | [], [] => true
  | (segment, outcome) :: rest, (segment', outcome') :: rest' =>
      segment = segment' && beq outcome outcome' && beqEntries rest rest'
  | _, _ => false

end

end Outcome

end ConfigSchema
