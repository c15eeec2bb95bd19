import ConfigSchema.Number.Basic
import ConfigSchema.Fields

/-!
# `Value` — what a configuration holds

A configuration is a JSON-like tree with three additions: an explicit *undefined*, regular expressions and
callables. Regular expressions are stored and compared by their pattern, and never run.

A callable is an identity together with the name of the behaviour behind it, its *hook*. Two callables are
the same exactly if their identities agree; what a call returns depends on the hook alone. So a copy of a
callable under a fresh identity is a different callable that behaves the same (`Callable.call_rebind`).

## Contents
- `Callable`, `Pattern`, `Value`, and `Kind`, the classification of values that schemas check.
- Reading: `get?`, `toInt64?`, `asString?`, `asBool?`, `length?`.
- `Value.Distinct`: no object of the value repeats a key.
-/

namespace ConfigSchema

/-! ## Parts of a value -/

/-- A callable: its identity, and the behaviour it stands for. -/
structure Callable where
  id : Nat
  hook : String
deriving DecidableEq

/-- A regular expression, kept as written. -/
structure Pattern where
  source : String
  ignoreCase : Bool
deriving DecidableEq

/-- A configuration, or a part of one. The entries of an object are in order. -/
inductive Value where
  | undefined
  | null
  | bool (b : Bool)
  | number (n : Number)
  | string (s : String)
  | array (items : List Value)
  | object (fields : List (String × Value))
  | regexp (p : Pattern)
  | function (f : Callable)

/-! ## Callables -/

/-- What each behaviour answers to a list of arguments. -/
abbrev Hooks := String → List Value → Value

namespace Callable

/-- What a call returns. -/
def call (hooks : Hooks) (f : Callable) (args : List Value) : Value := hooks f.hook args

/-- The same behaviour under the identity `id`. -/
def rebind (f : Callable) (id : Nat) : Callable := { f with id }

/-- Identity of callables. -/
def same (f g : Callable) : Bool := f.id = g.id

@[simp] theorem call_rebind (hooks : Hooks) (f : Callable) (id : Nat) (args : List Value) :
    (f.rebind id).call hooks args = f.call hooks args := rfl

end Callable

/-! ## Kinds -/

/-- What a value is. Arrays, patterns, null and plain objects are told apart. -/
inductive Kind where
  | string
  | number
  | boolean
  | function
  | undefined
  | null
  | array
  | regexp
  | object
deriving DecidableEq, Repr

namespace Kind

/-- The name used in messages. -/
def name : Kind → String
  | string => "string"
  | number => "number"
  | boolean => "boolean"
  | function => "function"
  | undefined => "undefined"
  | null => "null"
  | array => "array"
  | regexp => "regexp"
  | object => "object"

/-- Every kind. -/
def all : List Kind :=
  [string, number, boolean, function, undefined, null, array, regexp, object]

theorem mem_all (k : Kind) : k ∈ all := by cases k <;> decide

/-- The kind of a given name. -/
def ofName? (name : String) : Option Kind := all.find? fun k => k.name = name

theorem ofName?_name (k : Kind) : ofName? k.name = some k := by cases k <;> decide

end Kind

namespace Value

/-- The kind of a value. -/
def kind : Value → Kind
  | undefined => .undefined
  | null => .null
  | bool _ => .boolean
  | number _ => .number
  | string _ => .string
  | array _ => .array
  | object _ => .object
  | regexp _ => .regexp
  | function _ => .function

theorem eq_array_of_kind {v : Value} (h : v.kind = .array) : ∃ items, v = array items := by
  cases v with
  | array items => exact ⟨items, rfl⟩
  | _ => exact absurd h (by simp [kind])

theorem eq_object_of_kind {v : Value} (h : v.kind = .object) : ∃ fields, v = object fields := by
  cases v with
  | object fields => exact ⟨fields, rfl⟩
  | _ => exact absurd h (by simp [kind])

/-! ## Reading -/

/-- The entry of an object under `key`. -/
def get? (v : Value) (key : String) : Option Value :=
  match v with
  | object fields => fields.lookup key
  | _ => none

/-- The text of a string. -/
def asString? : Value → Option String
  | string s => some s
  | _ => none

/-- The truth value of a Boolean. -/
def asBool? : Value → Option Bool
  | bool b => some b
  | _ => none

/-- The number as a signed 64-bit word. -/
def toInt64? : Value → Option Int
  | number n => n.toInt64?
  | _ => none

/-- The number of elements of an array, or of entries of an object. -/
def length? : Value → Option Nat
  | array items => some items.length
  | object fields => some fields.length
  | _ => none

/-- A float by its bit pattern; a pattern that is no finite number becomes null. -/
def ofDoubleBits (bits : UInt64) : Value :=
  match Double.ofBits? bits with
  | some x => number (.double x)
  | none => null

/-! ## Distinct keys -/

mutual

/-- No object in the value repeats a key. -/
def Distinct : Value → Prop
  | array items => DistinctItems items
  | object fields => (Fields.keys fields).Nodup ∧ DistinctFields fields
  | _ => True

/-- No object in the elements repeats a key. -/
def DistinctItems : List Value → Prop
  | [] => True
  | v :: rest => Distinct v ∧ DistinctItems rest

/-- No object in the entries repeats a key. -/
def DistinctFields : List (String × Value) → Prop
  | [] => True
  | (_, v) :: rest => Distinct v ∧ DistinctFields rest

end

theorem distinctItems_iff {items : List Value} :
    DistinctItems items ↔ ∀ v ∈ items, Distinct v := by
  induction items with
  | nil => simp [DistinctItems]
  | cons v rest ih => simp [DistinctItems, ih]

theorem distinctFields_iff {fields : List (String × Value)} :
    DistinctFields fields ↔ ∀ p ∈ fields, Distinct p.2 := by
  induction fields with
  | nil => simp [DistinctFields]
  | cons p rest ih =>
      obtain ⟨k, v⟩ := p
      simp [DistinctFields, ih]

end Value

end ConfigSchema
