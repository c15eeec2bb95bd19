import ConfigSchema.Value.Basic

/-!
# `Value.Equality` — when two values are equal

Two notions are in use. **Strict** equality, by which a literal is matched, compares scalars by value
(numbers numerically) and callables by identity; arrays, objects and patterns are never strictly equal.
**Loose** equality `Value.beq` extends it to containers: arrays element by element, objects without regard
to the order of their keys, patterns by their source alone.
-/

namespace ConfigSchema

namespace Value

/-- Strict equality: only scalars and callables can be strictly equal. -/
def strictEq : Value → Value → Bool
  | undefined, undefined => true
  | null, null => true
  | bool a, bool b => a = b
  | number a, number b => a.beq b
  | string a, string b => a = b
  | function f, function g => f.same g
  | _, _ => false

theorem strictEq_comm (a b : Value) : strictEq a b = strictEq b a := by
  cases a <;> cases b <;> simp [strictEq, Number.beq_comm, Callable.same, eq_comm]

/-- Strictly equal values are of one kind. -/
theorem kind_eq_of_strictEq {a b : Value} (h : strictEq a b = true) : a.kind = b.kind := by
  cases a <;> cases b <;> first | rfl | simp [strictEq] at h

/-! ## Loose equality -/

mutual

/-- Structural equality, objects being unordered. -/
def beq : Value → Value → Bool
  | array xs, array ys => beqItems xs ys
  | object xs, object ys => xs.length = ys.length && beqFields xs ys
  | regexp p, regexp q => p.source = q.source
  | a, b => strictEq a b

/-- Equality of arrays, position by position. -/
def beqItems : List Value → List Value → Bool
  | [], [] => true
  | x :: xs, y :: ys => beq x y && beqItems xs ys
  | _, _ => false

/-- Is every entry of the first object found in the second? -/
def beqFields : List (String × Value) → List (String × Value) → Bool
  | [], _ => true
  | (key, x) :: xs, ys =>
      (match ys.lookup key with
        | some y => beq x y
        | none => false) && beqFields xs ys

end

end Value

end ConfigSchema
