import ConfigSchema.Proofs.Ensures
import ConfigSchema.Proofs.Parts
import ConfigSchema.Schema.Validate

/-!
# `Verdict` — what a check decides

A check ends in a verdict: is the value accepted, and what is the value afterwards. The outcome tree says
more, but no verdict depends on more than that; in particular none depends on a name, a warning or a log
(`SameVerdict`).

## Contents
- `Verdict`, and the verdict on a container from those on its items (`ofElements`, `ofEntries`).
- `SameVerdict`: two checks that reach one verdict.
- The readings of object rules: `Schema.fill`, `Rule.keyCheck`, `Rule.governing`, `Rule.lacking`. Closed and
  open objects check an entry alike, by its governor (`Rule.keyCheck_sameVerdict`).
-/

namespace ConfigSchema

open Checker

/-! ## Verdicts -/

/-- Is the value accepted, and what is it afterwards? -/
structure Verdict where
  ok : Bool
  value : Value

/-- The verdict in the answer of a check. -/
def Checked.verdict (c : Checked) : Verdict := ⟨c.outcome.isOk, c.value⟩

theorem Checked.verdict_eq_iff {a b : Checked} :
    a.verdict = b.verdict ↔ a.outcome.isOk = b.outcome.isOk ∧ a.value = b.value := by
  unfold verdict
  rw [Verdict.mk.injEq]

namespace Verdict

/-- The verdict on an array, from those on its elements. -/
def ofElements (rs : List Verdict) : Verdict := ⟨rs.all (·.ok), .array (rs.map (·.value))⟩

/-- The verdict on an object, from those on its entries, and what is added to it. -/
def ofEntries (rs : List (String × Verdict)) (added : Fields Value) : Verdict :=
  ⟨rs.all (·.2.ok), .object (rs.map (fun r => (r.1, r.2.value)) ++ added)⟩

variable {α : Type} {l : List α}

theorem ofElements_ok_iff {q : α → Prop} {rs : List Verdict}
    (h : List.Forall₂ (fun a r => r.ok = true ↔ q a) l rs) : (ofElements rs).ok = true ↔ ∀ a ∈ l, q a :=
  forall₂_all_iff h

theorem ofElements_value {f : α → Value} {rs : List Verdict}
    (h : List.Forall₂ (fun a r => r.value = f a) l rs) : (ofElements rs).value = .array (l.map f) :=
  congrArg Value.array (forall₂_map_eq h)

theorem ofEntries_ok_iff {q : α → Prop} {rs : List (String × Verdict)} {added : Fields Value}
    (h : List.Forall₂ (fun a r => r.2.ok = true ↔ q a) l rs) :
    (ofEntries rs added).ok = true ↔ ∀ a ∈ l, q a :=
  forall₂_all_iff h

theorem ofEntries_value {f : α → String × Value} {rs : List (String × Verdict)} {added : Fields Value}
    (h : List.Forall₂ (fun a r => (r.1, r.2.value) = f a) l rs) :
    (ofEntries rs added).value = .object (l.map f ++ added) := by
  rw [ofEntries, forall₂_map_eq h]

end Verdict

/-- Elements with related outcomes are reported as related items. -/
theorem forall₂_reported {R : Outcome → Outcome → Prop} (segment : Nat → Segment) {rs rs' : List Checked}
    (h : List.Forall₂ (fun r r' => R r.outcome r'.outcome) rs rs') :
    List.Forall₂ (fun e e' => e.1 = e'.1 ∧ R e.2 e'.2) (rs.mapIdx fun i r => (segment i, r.outcome))
      (rs'.mapIdx fun i r => (segment i, r.outcome)) := by
  induction h generalizing segment with
  | nil => exact .nil
  | cons hr _ ih =>
      rw [List.mapIdx_cons, List.mapIdx_cons]
      exact .cons ⟨rfl, hr⟩ (ih fun i => segment (i + 1))

theorem allOk_mapIdx (segment : Nat → Segment) (results : List Checked) :
    Outcome.allOk (results.mapIdx fun i r => (segment i, r.outcome)) =
      (results.map Checked.verdict).all (·.ok) := by
  induction results generalizing segment with
  | nil => rfl
  | cons r rest ih =>
      rw [List.mapIdx_cons, List.map_cons, List.all_cons, Outcome.allOk, ih fun i => segment (i + 1)]
      rfl

theorem allOk_map (results : List (String × Checked)) :
    Outcome.allOk (results.map fun r => (.key r.1, r.2.outcome)) =
      (results.map fun r => (r.1, r.2.verdict)).all (·.2.ok) := by
  induction results with
  | nil => rfl
  | cons r rest ih =>
      rw [List.map_cons, List.map_cons, List.all_cons, Outcome.allOk, ih]
      rfl

theorem verdict_elements (results : List Checked) :
    Checked.verdict ⟨.collection (results.mapIdx fun i r => (.index i, r.outcome)),
      .array (results.map (·.value))⟩ = .ofElements (results.map Checked.verdict) := by
  show Verdict.mk (Outcome.allOk _) _ = _
  rw [allOk_mapIdx Segment.index, Verdict.ofElements, List.map_map]
  rfl

theorem verdict_entries (results : List (String × Checked)) (added : Fields Value) :
    Checked.verdict ⟨.collection (results.map fun r => (.key r.1, r.2.outcome)),
      .object (results.map (fun r => (r.1, r.2.value)) ++ added)⟩ =
      .ofEntries (results.map fun r => (r.1, r.2.verdict)) added := by
  show Verdict.mk (Outcome.allOk _) _ = _
  rw [allOk_map, Verdict.ofEntries, List.map_map]
  rfl

/-- From one supply, both checks reach one verdict and leave one supply. -/
def SameVerdict (r s : Run Checked) : Prop := Run.Agree (fun a b => a.verdict = b.verdict) r s

theorem SameVerdict.refl (r : Run Checked) : SameVerdict r r := fun _ => ⟨rfl, rfl⟩

theorem SameVerdict.symm {r s : Run Checked} (h : SameVerdict r s) : SameVerdict s r :=
  fun next => ⟨(h next).1.symm, (h next).2.symm⟩

theorem SameVerdict.trans {r s t : Run Checked} (h : SameVerdict r s) (h' : SameVerdict s t) :
    SameVerdict r t :=
  fun next => ⟨(h next).1.trans (h' next).1, (h next).2.trans (h' next).2⟩

/-- One verdict satisfies one postcondition. -/
theorem SameVerdict.ensures {r s : Run Checked} (h : SameVerdict r s) {base : Nat} {post : Verdict → Prop}
    (hr : r.Ensures base fun c => post c.verdict) : s.Ensures base fun c => post c.verdict :=
  Run.Agree.ensures h hr fun _ _ hab hpost => hab ▸ hpost

/-- A warning changes no verdict. -/
theorem Checker.advising_sameVerdict (warning : String) (check : Checker) (pos : Position) (v : Value) :
    SameVerdict (check pos v) (advising warning check pos v) := by
  intro next
  refine ⟨?_, rfl⟩
  show Verdict.mk _ _ = Verdict.mk (Outcome.appendWarning warning _).isOk _
  rw [Outcome.isOk_appendWarning]
  rfl

/-- The check of an undeclared key accepts, with or without a hint. -/
theorem Checker.undeclared_cases {P : Checker → Prop} (suggest : Bool) (declared : List String) (key : String)
    (haccept : P accept) (hhint : ∀ hint, P (advising hint accept)) : P (undeclared suggest declared key) := by
  unfold undeclared
  cases if suggest then Suggestion.hint? (Suggestion.closest key declared) else none with
  | none => exact haccept
  | some hint => exact hhint hint

/-- Choices between alternatives that decide alike decide alike; what a failed choice expected is not part
    of the verdict. -/
theorem Checker.firstOf_sameVerdict {p q : Position} (expected expected' : String)
    {checks checks' : List Checker}
    (h : List.Forall₂ (fun check check' => ∀ v, SameVerdict (check p v) (check' q v)) checks checks')
    (v : Value) : SameVerdict (firstOf expected checks p v) (firstOf expected' checks' q v) := by
  induction h generalizing v with
  | nil => exact Run.Agree.pure rfl
  | cons hcheck _ ih =>
      refine Run.Agree.bind (hcheck v) fun a b hab => ?_
      obtain ⟨hok, hvalue⟩ := Checked.verdict_eq_iff.mp hab
      rw [hok, hvalue]
      split
      · exact Run.Agree.pure hab
      · -- Both fail, and have left the same value for the alternatives that follow.
        exact ih b.value

/-! ## Rules for objects -/

namespace Checker

theorem mem_missing {slots : List Slot} {present : Fields Value} {m : Slot × Value}
    (h : m ∈ Slot.missing slots present) : m.1 ∈ slots ∧ m.1.default? = some m.2 := by
  obtain ⟨slot, hslot, hm⟩ := List.mem_filterMap.mp h
  split at hm
  · exact absurd hm (Option.some_ne_none m).symm
  · obtain ⟨d, hd, rfl⟩ := Option.map_eq_some_iff.mp hm
    exact ⟨hslot, hd⟩

theorem notMem_keys_of_mem_missing {slots : List Slot} {present : Fields Value} {m : Slot × Value}
    (h : m ∈ Slot.missing slots present) : m.1.key ∉ present.keys := by
  obtain ⟨slot, -, hm⟩ := List.mem_filterMap.mp h
  split at hm
  · exact absurd hm (Option.some_ne_none m).symm
  · next hhas =>
    obtain ⟨d, -, rfl⟩ := Option.map_eq_some_iff.mp hm
    exact fun hpresent => hhas (Fields.has_iff_mem_keys.mpr hpresent)

/-- Which declared keys are missing depends on the keys that are there, not on their order or what is under them. -/
theorem missing_congr (slots : List Slot) {fields fields' : Fields Value}
    (h : ∀ key, fields.has key = fields'.has key) : Slot.missing slots fields = Slot.missing slots fields' := by
  simp only [Slot.missing, h]

theorem missing_eq_of_keys_eq (slots : List Slot) {fields fields' : Fields Value} (h : fields.keys = fields'.keys) :
    Slot.missing slots fields = Slot.missing slots fields' := by
  refine missing_congr slots fun key => ?_
  rw [Bool.eq_iff_iff, Fields.has_iff_mem_keys, Fields.has_iff_mem_keys, h]

end Checker

namespace Schema

theorem find?_slots (fields : Fields Schema) (key : String) :
    Slot.find? (slots fields) key =
      (fields.lookup key).map fun s => ⟨key, s.name, s.default?, s.check⟩ := by
  induction fields with
  | nil => simp [slots, Slot.find?]
  | cons field rest ih =>
      obtain ⟨k, s⟩ := field
      rw [slots_eq_map] at ih ⊢
      by_cases hk : key = k
      · subst hk
        simp [Slot.find?]
      · have hk' : ¬ k = key := fun e => hk e.symm
        rw [List.lookup_cons, beq_false_of_ne hk]
        simpa [Slot.find?, hk'] using ih

theorem missing_slots_cons (key : String) (s : Schema) (rest : Fields Schema) (present : Fields Value) :
    Slot.missing (slots ((key, s) :: rest)) present =
      if key ∈ present.keys then Slot.missing (slots rest) present
      else match s.default? with
        | none => Slot.missing (slots rest) present
        | some d => (⟨key, s.name, s.default?, s.check⟩, d) :: Slot.missing (slots rest) present := by
  rw [slots_eq_map, slots_eq_map]
  by_cases hk : key ∈ present.keys
  · have hhas : present.has key = true := Fields.has_iff_mem_keys.mpr hk
    simp [Slot.missing, hk, hhas]
  · have hhas : present.has key = false := Bool.eq_false_iff.mpr fun e => hk (Fields.has_iff_mem_keys.mp e)
    cases hd : s.default? <;> simp [Slot.missing, hk, hhas, hd]

/-- The run that injects a default: the copy is checked, so that defaults inside it are injected too. -/
def fill (s : Schema) (pos : Position) (default : Value) : Run Checked := do
  let copy ← default.deepCopy
  s.check pos copy

/-- An injection adds what such a run leaves. -/
theorem inject_eq_fill (s : Schema) (key : String) (default? : Option Value) (pos : Position) (d : Value) :
    Slot.inject pos ⟨key, s.name, default?, s.check⟩ d =
      Run.log (.injected key s.name) >>= fun _ => (fun c => (key, c.value)) <$> s.fill pos d := by
  simp [Slot.inject, fill]

end Schema

namespace Rule

/-- How an object rule checks the entry under `key`. -/
def keyCheck : Rule → String → Checker
  | .object fields suggest => closedKeys (Schema.slots fields) suggest
  | .objects advice specifics element => openKeys advice.warning? (Schema.slots specifics) element.check
  | _ => fun _ => accept

/-- The check of the schema that governs the entry under `key`; without one the entry passes. -/
def governing (rule : Rule) (key : String) : Checker := (rule.governor? key).elim accept Schema.check

/-- The declared keys that are not present and carry a default. -/
def lacking (rule : Rule) (present : List String) : Fields Schema :=
  rule.declared.filter fun field => field.1 ∉ present ∧ field.2.default?.isSome

theorem mem_lacking_iff {rule : Rule} {present : List String} {field : String × Schema} :
    field ∈ rule.lacking present ↔
      field ∈ rule.declared ∧ field.1 ∉ present ∧ field.2.default?.isSome := by
  unfold lacking
  rw [List.mem_filter, decide_eq_true_iff]

/-- Nothing is lacking where every declared key with a default is present. -/
theorem lacking_eq_nil {rule : Rule} {present : List String}
    (h : ∀ field ∈ rule.declared, field.2.default?.isSome → field.1 ∈ present) : rule.lacking present = [] := by
  refine List.eq_nil_iff_forall_not_mem.mpr fun field hf => ?_
  obtain ⟨hdeclared, habsent, hdefault⟩ := mem_lacking_iff.mp hf
  exact habsent (h field hdeclared hdefault)

theorem check_of_isKeyed {rule : Rule} (h : rule.IsKeyed) :
    rule.check = entries rule.keyCheck (Schema.slots rule.declared) := by
  cases rule with
  | object fields suggest => simp [check, keyCheck, declared]
  | objects advice specifics element => simp [check, keyCheck, declared]
  | _ => exact absurd h id

/-- What holds of the checks of the parts, and is kept by hints and warnings, holds of the check of every entry. -/
theorem keyCheck_cases {P : Checker → Prop} {rule : Rule} (h : rule.IsKeyed) (key : String)
    (haccept : P accept) (hpart : ∀ t ∈ rule.parts, P t.check)
    (hadvising : ∀ warning check, P check → P (advising warning check)) : P (rule.keyCheck key) := by
  cases rule with
  | object fields suggest =>
      rw [keyCheck, closedKeys, Schema.find?_slots]
      cases hl : fields.lookup key with
      | none => exact undeclared_cases suggest _ key haccept fun hint => hadvising hint _ haccept
      | some s => exact hpart s (List.mem_map_of_mem (Fields.mem_of_lookup hl))
  | objects advice specifics element =>
      have hcheck : P (((Slot.find? (Schema.slots specifics) key).map (·.check)).getD element.check) := by
        rw [Schema.find?_slots]
        cases hl : specifics.lookup key with
        | none => exact hpart element List.mem_cons_self
        | some s => exact hpart s (List.mem_cons_of_mem _ (List.mem_map_of_mem (Fields.mem_of_lookup hl)))
      rw [keyCheck, openKeys]
      cases advice.warning? key with
      | none => exact hcheck
      | some warning => exact hadvising warning _ hcheck
  | _ => exact absurd h id

/-- Apart from hints and warnings, an entry is checked by its governor. -/
theorem keyCheck_sameVerdict {rule : Rule} (h : rule.IsKeyed) (key : String) (pos : Position) (v : Value) :
    SameVerdict (rule.governing key pos v) (rule.keyCheck key pos v) := by
  cases rule with
  | object fields suggest =>
      rw [keyCheck, closedKeys, Schema.find?_slots, governing, governor?]
      cases fields.lookup key with
      | some s => exact SameVerdict.refl _
      | none =>
          exact undeclared_cases (P := fun check => SameVerdict (accept pos v) (check pos v)) suggest _ key
            (SameVerdict.refl _) fun hint => advising_sameVerdict hint accept pos v
  | objects advice specifics element =>
      have hcheck : ((Slot.find? (Schema.slots specifics) key).map (·.check)).getD element.check =
          governing (.objects advice specifics element) key := by
        rw [Schema.find?_slots, governing, governor?]
        cases specifics.lookup key <;> rfl
      rw [keyCheck, openKeys, hcheck]
      cases advice.warning? key with
      | none => exact SameVerdict.refl _
      | some warning => exact advising_sameVerdict warning _ pos v
  | _ => exact absurd h id

end Rule

end ConfigSchema
