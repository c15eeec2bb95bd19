/-!
# `Run` — the effects of a validation

Validating a value does two things besides answering: it logs events, and it draws fresh identities for the
callables of injected defaults. A `Run` is a computation with just these effects. It starts from the next
unused identity and yields its answer, the events in the order in which they happened, and the identity that
is next unused afterwards.

`Run` is a lawful monad, so that `List.mapM` over the entries of a container can be reasoned about entry by
entry.
-/

namespace ConfigSchema

/-! ## Events -/

/-- What is logged. -/
inductive Event where
  /-- The default of the schema named `schema` is written under the missing key `key`. -/
  | injected (key schema : String)
  /-- A merge has settled `key` on the schema named `schema`. -/
  | merged (key schema : String)
  /-- A container lies deeper than the limits allow. -/
  | tooDeep (depth maxDepth : Nat)
deriving DecidableEq

namespace Event

/-- How loud an event is. -/
def level : Event → String
  | injected .. => "DEBUG"
  | merged .. => "TRACE"
  | tooDeep .. => "WARN"

/-- The fixed text of an event. -/
def message : Event → String
  | injected .. => "injecting default"
  | merged .. => "merged schema key"
  | tooDeep .. => "validation depth limit reached"

/-- The named details. -/
def details : Event → List (String × String)
  | injected key schema => [("key", key), ("validator", schema)]
  | merged key schema => [("key", key), ("validator", schema)]
  | tooDeep depth maxDepth => [("depth", toString depth), ("max_depth", toString maxDepth)]

end Event

/-! ## Runs -/

/-- What a run yields. -/
structure Ran (α : Type) where
  result : α
  events : List Event
  next : Nat

/-- A computation that logs events and draws identities, from the next unused identity on. -/
def Run (α : Type) : Type := Nat → Ran α

namespace Run

variable {α β : Type}

/-- Runs a computation from the next unused identity `next`. -/
def start (run : Run α) (next : Nat) : Ran α := run next

instance : Monad Run where
  pure a := fun next => ⟨a, [], next⟩
  bind run f := fun next =>
    let first := run next
    let second := f first.result first.next
    ⟨second.result, first.events ++ second.events, second.next⟩

@[ext] theorem ext {r s : Run α} (h : ∀ next, r.start next = s.start next) : r = s := funext h

@[simp] theorem start_pure (a : α) (next : Nat) : (pure a : Run α).start next = ⟨a, [], next⟩ := rfl

@[simp] theorem start_bind (run : Run α) (f : α → Run β) (next : Nat) :
    (run >>= f).start next =
      ⟨((f (run.start next).result).start (run.start next).next).result,
        (run.start next).events ++ ((f (run.start next).result).start (run.start next).next).events,
        ((f (run.start next).result).start (run.start next).next).next⟩ := rfl

instance : LawfulMonad Run := LawfulMonad.mk' _
  (fun run => Run.ext fun next => by
    show (run >>= pure ∘ id).start next = run.start next
    simp)
  (fun _ _ => Run.ext fun _ => by simp)
  (fun _ _ _ => Run.ext fun _ => by simp [List.append_assoc])

@[simp] theorem start_map (f : α → β) (run : Run α) (next : Nat) :
    (f <$> run).start next =
      ⟨f (run.start next).result, (run.start next).events, (run.start next).next⟩ := by
  rw [map_eq_pure_bind, start_bind, start_pure, List.append_nil]

/-- Logs one event. -/
def log (event : Event) : Run Unit := fun next => ⟨(), [event], next⟩

/-- Draws an identity that was never drawn before. -/
def fresh : Run Nat := fun next => ⟨next, [], next + 1⟩

@[simp] theorem start_log (event : Event) (next : Nat) :
    (log event).start next = ⟨(), [event], next⟩ := rfl

@[simp] theorem start_fresh (next : Nat) : fresh.start next = ⟨next, [], next + 1⟩ := rfl

end Run

end ConfigSchema
