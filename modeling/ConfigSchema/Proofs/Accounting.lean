import ConfigSchema.Proofs.Course

/-!
# `Run.Journals` — the log is a journal

A validation logs each injection before it is made. This module shows that the log can be read as a journal of what
becomes of the value: the value afterwards is the value before, with the injections made one after another, in the
order in which they were logged (`Schema.journaled`). So no entry is added without an event, no event is logged twice,
and no entry that is there is replaced. The entries of the value can be counted from the log, and a validation that
logs no injection leaves the value as it is (`validate_journal`); neither does it draw an identity then
(`next_eq_of_value_eq`).

Histories can be joined, and made inside of a value. So a journal is a course that injections keep
(`Course.closed_journal`), and with that one of every validation (`Proofs.Course`).
-/

namespace ConfigSchema

/-- **The log is a journal** from the value `v` to what the result shows. Without an injection no identity is drawn. -/
def Run.Journals {α : Type} (Admits : List String → Injection → Prop) (view : α → Value) (v : Value) (run : Run α) :
    Prop :=
  ∀ next, ∃ journal : List Injection,
    journal.map Injection.event = (run.start next).events.filter Event.isInjection ∧
    v.Journal Admits journal (view (run.start next).result) ∧
    (journal = [] → (run.start next).next = next)

/-- **Journaled checkers.** Every run keeps a journal of what becomes of the value. -/
def Checker.Journaled (Admits : List String → Injection → Prop) (check : Checker) : Prop :=
  ∀ pos v, (check pos v).Journals Admits (fun c => c.value) v

/-- **Injections keep a journal**, and without them no identity is drawn. -/
theorem Course.closed_journal (Admits : List String → Injection → Prop) :
    Course.Closed Admits fun n v journal m w => v.Journal Admits journal w ∧ (journal = [] → m = n) where
  refl next v := ⟨.nil v, fun _ => rfl⟩
  trans := by
    rintro n m k u v w first second ⟨hjournal, hquiet⟩ ⟨hjournal', hquiet'⟩
    refine ⟨hjournal.append hjournal', fun hnil => ?_⟩
    obtain ⟨rfl, rfl⟩ := List.append_eq_nil_iff.mp hnil
    exact (hquiet' rfl).trans (hquiet rfl)
  inject := by
    intro next fields i hadmits copied
    have hcopy : Run.Yields 0 i.default.deepCopy copied.result := ⟨next, Nat.zero_le next, rfl⟩
    exact ⟨.single (.here hadmits hcopy), fun hnil => absurd hnil (List.cons_ne_nil i [])⟩
  element before after h :=
    ⟨h.1.inside (fun v => .array (before ++ v :: after)) (.element before after), h.2⟩
  entry before after key h :=
    ⟨h.1.inside (fun v => .object (before ++ (key, v) :: after)) (.entry before after key), h.2⟩

/-! ## Schemas -/

namespace Schema

open Checker

variable {Admits : List String → Injection → Prop}

/-- **Every schema keeps a journal**, in its log, of what it does to a value. -/
theorem journaled {s : Schema} (hc : s.CustomFree)
    (hadmits : s.Everywhere fun rule => AdmitsSlots Admits (slots rule.declared)) : s.check.Journaled Admits :=
  follows (Course.closed_journal Admits) hc hadmits

/-- **A check that leaves the value as it was draws no identity.** -/
theorem next_eq_of_value_eq {s : Schema} (hc : s.CustomFree) {pos : Position} {v : Value} {next : Nat}
    (h : ((s.check pos v).start next).result.value = v) : ((s.check pos v).start next).next = next := by
  have hadmits : s.Everywhere fun rule => AdmitsSlots (fun _ _ => True) (slots rule.declared) :=
    everywhere_of_forall s fun _ _ _ _ _ _ => trivial
  obtain ⟨journal, -, hjournal, hquiet⟩ := journaled hc hadmits pos v next
  change v.Journal _ journal ((s.check pos v).start next).result.value at hjournal
  rw [h] at hjournal
  exact hquiet hjournal.eq_nil_of_eq

/-- What is missing comes in the order in which it is declared. -/
theorem keys_missing_sublist (declared : Fields Schema) (present : Fields Value) :
    ((Slot.missing (slots declared) present).map fun m => m.1.key).Sublist declared.keys := by
  induction declared with
  | nil => exact List.Sublist.slnil
  | cons field rest ih =>
      rw [missing_slots_cons]
      split
      · exact ih.cons field.1
      · split
        · exact ih.cons field.1
        · exact ih.cons_cons field.1

/-- **What the schema may inject**: the default of a key that it declares somewhere, under the name of the schema
    there, into an object that lacks the key. -/
def MayInject (s : Schema) (present : List String) (i : Injection) : Prop :=
  i.key ∉ present ∧ ∃ t : Schema, t.Within s ∧ ∃ field ∈ t.rule.declared,
    field.1 = i.key ∧ field.2.name = i.name ∧ field.2.default? = some i.default

theorem admitsSlots_mayInject {s : Schema} (hd : s.DistinctKeys) :
    s.Everywhere fun rule => AdmitsSlots s.MayInject (slots rule.declared) := by
  rw [everywhere_iff_within]
  intro t ht fields done m rest hmissing
  have hm : m ∈ Slot.missing (slots t.rule.declared) fields := by
    rw [hmissing]
    exact List.mem_append_right done List.mem_cons_self
  obtain ⟨hslot, hdefault⟩ := mem_missing hm
  rw [slots_eq_map] at hslot
  obtain ⟨field, hf, hfield⟩ := List.mem_map.mp hslot
  have hnodup := (everywhere_iff_within.mp hd t ht).sublist (keys_missing_sublist t.rule.declared fields)
  rw [hmissing, List.map_append, List.map_cons, List.nodup_append] at hnodup
  refine ⟨fun hpresent => ?_, t, ht, field, hf, ?_⟩
  · rcases List.mem_append.mp hpresent with hthere | hdone
    · exact notMem_keys_of_mem_missing hm hthere
    · exact hnodup.2.2 m.1.key hdone m.1.key List.mem_cons_self rfl
  · rw [← hdefault, ← hfield]
    exact ⟨rfl, rfl, rfl⟩

/-- **Every change is logged, once.** The injections that a validation logs are, in this order, what has become of the
    value. Each has added its own entry and those of the default that it stands for, so the entries can be counted from
    the log; and the value is another one if and only if something is logged. -/
theorem validate_journal {s : Schema} (hc : s.CustomFree) (hd : s.DistinctKeys) (limits : Limits) (v : Value)
    (next : Nat) :
    let ran := (s.validate limits v).start next
    let injected := ran.events.filter Event.isInjection
    (∃ journal : List Injection, journal.map Injection.event = injected ∧
      v.Journal s.MayInject journal ran.result.value ∧
      ran.result.value.entryCount = v.entryCount + (journal.map fun i => 1 + i.default.entryCount).sum) ∧
    (ran.result.value ≠ v ↔ injected ≠ []) := by
  intro ran injected
  obtain ⟨journal, hlog, hjournal, -⟩ := journaled hc (admitsSlots_mayInject hd) (.root limits) v next
  change v.Journal s.MayInject journal ran.result.value at hjournal
  have hnil : injected = [] ↔ journal = [] := by
    rw [← @List.map_eq_nil_iff _ _ Injection.event, hlog]
    exact Iff.rfl
  refine ⟨⟨journal, hlog, hjournal, hjournal.entryCount_eq⟩, ?_⟩
  rw [ne_eq, ne_eq, hnil, not_iff_not]
  constructor
  · intro hsame
    rw [hsame] at hjournal
    exact hjournal.eq_nil_of_eq
  · rintro rfl
    exact hjournal.eq_of_nil

/-- The first alternative fails, and the second one accepts the value. By then a server has been injected, and a port
    into the server. -/
theorem validate_journal_failed_alternative :
    let server := object [("port", string.withDefault (.string "http"))]
    let s := either [object [("host", int), ("server", server.withDefault (.object []))],
      object [("host", string), ("server", any)]]
    let v := Value.object [("host", .string "h")]
    let w := Value.object [("host", .string "h"), ("server", .object [("port", .string "http")])]
    let ran := (s.validate .unlimited v).start 0
    s.CustomFree ∧ s.DistinctKeys ∧ ran.result.outcome.isOk = true ∧ ran.result.value = w ∧
      (∃ journal : List Injection,
        journal.map Injection.event = [.injected "server" server.name, .injected "port" "string"] ∧
        v.Journal s.MayInject journal w ∧
        w.entryCount = v.entryCount + (journal.map fun i => 1 + i.default.entryCount).sum) ∧
      w ≠ v := by
  intro server s v w ran
  have hc : s.CustomFree := by decide
  have hd : s.DistinctKeys := by decide
  obtain ⟨hjournal, hdiffers⟩ := validate_journal hc hd .unlimited v 0
  exact ⟨hc, hd, rfl, rfl, hjournal, hdiffers.mpr (by decide)⟩

end Schema

end ConfigSchema
