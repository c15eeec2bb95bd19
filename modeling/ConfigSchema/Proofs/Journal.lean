import Mathlib.Algebra.GroupWithZero.Nat
import ConfigSchema.Proofs.Ensures
import ConfigSchema.Value.Copy

/-!
# `Value.Journal` — a history of injections

A default is injected into one object, somewhere in a value: the object gets one more entry, behind those that it
has, and nothing else becomes different. `Value.Gains` is such a step, and `Value.Journal` a history of them, in which
each step is put down with the default that was injected.

What is done in a part of a value is done in the value (`Journal.inside`), and histories that follow one another are
one history (`Journal.append`). So a journal can be kept of any validation; that is done in `Proofs.Accounting`. A
journal balances: the value afterwards has the entries of the value before, and for each step one entry and those of
its default (`Journal.entryCount_eq`).
-/

namespace ConfigSchema

/-! ## Entries of a value -/

namespace Value

mutual

/-- The number of entries of the objects in a value, at all levels. -/
def entryCount : Value → Nat
  | array items => entryCountItems items
  | object fields => entryCountFields fields
  | _ => 0

/-- The number of entries in the elements. -/
def entryCountItems : List Value → Nat
  | [] => 0
  | v :: rest => entryCount v + entryCountItems rest

/-- The number of entries: those here, and those in their values. -/
def entryCountFields : List (String × Value) → Nat
  | [] => 0
  | (_, v) :: rest => 1 + entryCount v + entryCountFields rest

end

theorem entryCount_array (items : List Value) : (array items).entryCount = (items.map entryCount).sum := by
  rw [entryCount]
  induction items with
  | nil => rfl
  | cons v rest ih => rw [entryCountItems, ih, List.map_cons, List.sum_cons]

theorem entryCount_object (fields : Fields Value) :
    (object fields).entryCount = (fields.map fun e => 1 + e.2.entryCount).sum := by
  rw [entryCount]
  induction fields with
  | nil => rfl
  | cons e rest ih =>
      obtain ⟨key, v⟩ := e
      rw [entryCountFields, ih, List.map_cons, List.sum_cons]

mutual

/-- A copy logs nothing and has the entries of the original. -/
theorem start_deepCopy : ∀ (v : Value) (next : Nat),
    (v.deepCopy.start next).events = [] ∧ (v.deepCopy.start next).result.entryCount = v.entryCount
  | array items, next => by
      have hitems := start_deepCopyItems items next
      simp [deepCopy, entryCount, hitems]
  | object fields, next => by
      have hfields := start_deepCopyFields fields next
      simp [deepCopy, entryCount, hfields]
  | function _, _ | undefined, _ | null, _ | bool _, _ | number _, _ | string _, _ | regexp _, _ => ⟨rfl, rfl⟩

theorem start_deepCopyItems : ∀ (items : List Value) (next : Nat),
    ((deepCopyItems items).start next).events = [] ∧
      entryCountItems ((deepCopyItems items).start next).result = entryCountItems items
  | [], _ => ⟨rfl, rfl⟩
  | v :: rest, next => by
      have hv := start_deepCopy v next
      have hrest := start_deepCopyItems rest (v.deepCopy.start next).next
      simp [deepCopyItems, entryCountItems, hv, hrest]

theorem start_deepCopyFields : ∀ (fields : List (String × Value)) (next : Nat),
    ((deepCopyFields fields).start next).events = [] ∧
      entryCountFields ((deepCopyFields fields).start next).result = entryCountFields fields
  | [], _ => ⟨rfl, rfl⟩
  | (key, v) :: rest, next => by
      have hv := start_deepCopy v next
      have hrest := start_deepCopyFields rest (v.deepCopy.start next).next
      simp [deepCopyFields, entryCountFields, hv, hrest]

end

end Value

/-! ## Injections -/

/-- A default that is written under a missing key: the key, the name of the schema there, and the default. -/
structure Injection where
  key : String
  name : String
  default : Value

namespace Injection

/-- What is logged of it. -/
def event (i : Injection) : Event := .injected i.key i.name

/-- The number of entries that it adds: one, and those of the default. -/
def weight (i : Injection) : Nat := 1 + i.default.entryCount

end Injection

/-! ## Journals -/

namespace Value

/-- **One injection.** Somewhere in the value an object, to whose keys `Admits` lets the injection in, gets one more
    entry behind the others, a copy of the default. -/
inductive Gains (Admits : List String → Injection → Prop) (i : Injection) : Value → Value → Prop
  | here {fields : Fields Value} {copy : Value} (hadmits : Admits fields.keys i)
      (hcopy : Run.Yields 0 i.default.deepCopy copy) :
      Gains Admits i (.object fields) (.object (fields ++ [(i.key, copy)]))
  | element {v w : Value} (before after : List Value) (h : Gains Admits i v w) :
      Gains Admits i (.array (before ++ v :: after)) (.array (before ++ w :: after))
  | entry {v w : Value} (before after : Fields Value) (key : String) (h : Gains Admits i v w) :
      Gains Admits i (.object (before ++ (key, v) :: after)) (.object (before ++ (key, w) :: after))

/-- **A history of injections**, in their order, from one value to another. -/
inductive Journal (Admits : List String → Injection → Prop) : Value → List Injection → Value → Prop
  | nil (v : Value) : Journal Admits v [] v
  | cons {i : Injection} {rest : List Injection} {u v w : Value} (h : Gains Admits i u v)
      (hrest : Journal Admits v rest w) : Journal Admits u (i :: rest) w

variable {Admits : List String → Injection → Prop} {i : Injection} {u v w : Value}

/-- A copy has the entries of the original. -/
theorem entryCount_of_copy {d copy : Value} (h : Run.Yields 0 d.deepCopy copy) : copy.entryCount = d.entryCount := by
  obtain ⟨next, -, rfl⟩ := h
  exact (d.start_deepCopy next).2

theorem Gains.admitted (h : Gains Admits i v w) : ∃ present, Admits present i := by
  induction h with
  | here hadmits _ => exact ⟨_, hadmits⟩
  | element _ _ _ ih => exact ih
  | entry _ _ _ _ ih => exact ih

theorem Gains.entryCount_eq (h : Gains Admits i v w) : w.entryCount = v.entryCount + i.weight := by
  induction h with
  | @here fields copy _ hcopy =>
      rw [entryCount_object, entryCount_object, List.map_append, List.sum_append, List.map_singleton,
        List.sum_singleton, entryCount_of_copy hcopy]
      rfl
  | element before after _ ih =>
      simp only [entryCount_array, List.map_append, List.map_cons, List.sum_append, List.sum_cons, ih]
      omega
  | entry before after key _ ih =>
      simp only [entryCount_object, List.map_append, List.map_cons, List.sum_append, List.sum_cons, ih]
      omega

namespace Journal

variable {first second journal : List Injection}

theorem single (h : Gains Admits i v w) : Journal Admits v [i] w := .cons h (.nil w)

theorem append (h : Journal Admits u first v) (h' : Journal Admits v second w) :
    Journal Admits u (first ++ second) w := by
  induction h with
  | nil => exact h'
  | cons hgains _ ih => exact .cons hgains (ih h')

/-- What is put down was let in. -/
theorem admitted (h : Journal Admits v journal w) : ∀ i ∈ journal, ∃ present, Admits present i := by
  induction h with
  | nil => exact fun _ hi => absurd hi List.not_mem_nil
  | cons hgains _ ih => exact List.forall_mem_cons.mpr ⟨hgains.admitted, ih⟩

/-- What happens to a part of a value happens to the value. -/
theorem inside (whole : Value → Value)
    (hwhole : ∀ {i v w}, Gains Admits i v w → Gains Admits i (whole v) (whole w))
    (h : Journal Admits v journal w) : Journal Admits (whole v) journal (whole w) := by
  induction h with
  | nil v => exact .nil (whole v)
  | cons hgains _ ih => exact .cons (hwhole hgains) ih

/-- **A journal balances.** Each injection has added one entry, and those of its default. -/
theorem entryCount_eq (h : Journal Admits v journal w) :
    w.entryCount = v.entryCount + (journal.map Injection.weight).sum := by
  induction h with
  | nil => rfl
  | cons hgains _ ih =>
      rw [ih, hgains.entryCount_eq, List.map_cons, List.sum_cons, Nat.add_assoc]

theorem eq_of_nil (h : Journal Admits v [] w) : w = v := by
  cases h
  rfl

/-- A value that something was injected into is another one. -/
theorem eq_nil_of_eq (h : Journal Admits v journal v) : journal = [] := by
  have hbalance := h.entryCount_eq
  cases journal with
  | nil => rfl
  | cons i rest =>
      rw [List.map_cons, List.sum_cons, Injection.weight] at hbalance
      omega

end Journal

end Value

end ConfigSchema
