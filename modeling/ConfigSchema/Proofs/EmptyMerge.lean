import ConfigSchema.Proofs.Alike
import ConfigSchema.Proofs.Erasure
import ConfigSchema.Proofs.Merging

/-!
# `Schema.merge_empty` — merging with nothing

A merge makes a new object schema from declared keys. With a side that declares no keys it has just the keys of the
other side, as they are, but it does not have all that the other side was: it gives hints whether or not that side
did, and what was composed in front of the declared keys is not asked any more (`merge_empty_not_identity`).

That is all that is lost. On a document that the schemas in front let pass (`LetsPass`), the merge decides as the
schema did, leaves the same value, and reports the same items, with hints at the undeclared keys
(`Outcome.hinted`). A schema that gave the hints itself and has nothing in front keeps its outcomes unchanged.
-/

namespace ConfigSchema

open Checker

/-! ## Hints -/

namespace Outcome

/-- The item of an undeclared key, with a hint at the declared keys that resemble it. -/
def hintedItem (declared : List String) (e : Segment × Outcome) : Segment × Outcome :=
  match e.1 with
  | .key key =>
    if key ∈ declared then e else (.key key, passed (Suggestion.hint? (Suggestion.closest key declared)))
  | .index _ => e

/-- The outcome for an object, with hints at the undeclared keys. -/
def hinted (declared : List String) : Outcome → Outcome
  | items entries warning => items (entries.map (hintedItem declared)) warning
  | outcome => outcome

end Outcome

namespace Checker

variable {slots : List Slot} {pos : Position} {key : String} {v : Value}

/-- Both leave the same value, and the second outcome is the first one with hints. -/
def Hinted (declared : List String) (c c' : Checked) : Prop :=
  c'.value = c.value ∧ c'.outcome = c.outcome.hinted declared

/-- Both leave the same entry, and the second outcome is the first one with a hint, if the key is undeclared. -/
def HintedEntry (declared : List String) (r r' : String × Checked) : Prop :=
  r'.1 = r.1 ∧ r'.2.value = r.2.value ∧
    (Segment.key r'.1, r'.2.outcome) = Outcome.hintedItem declared (.key r.1, r.2.outcome)

theorem hintedEntry_undeclared (suggest : Bool) {declared : List String} (hkey : key ∉ declared) :
    Run.Agree (fun c c' => HintedEntry declared (key, c) (key, c')) (undeclared suggest declared key pos v)
      (undeclared true declared key pos v) := by
  have hitem : ∀ outcome, Outcome.hintedItem declared (.key key, outcome) =
      (.key key, .passed (Suggestion.hint? (Suggestion.closest key declared))) := fun _ => if_neg hkey
  intro next
  unfold undeclared
  cases suggest with
  | true =>
      refine ⟨⟨rfl, rfl, ?_⟩, rfl⟩
      rw [hitem]
      cases Suggestion.hint? (Suggestion.closest key declared) <;> rfl
  | false =>
      rw [if_pos rfl]
      cases hhint : Suggestion.hint? (Suggestion.closest key declared) with
      | none => exact ⟨⟨rfl, rfl, by rw [hitem, hhint]; rfl⟩, rfl⟩
      | some hint => exact ⟨⟨rfl, rfl, by rw [hitem, hhint]; rfl⟩, rfl⟩

theorem hintedEntry_closedKeys (suggest : Bool) :
    Run.Agree (fun c c' => HintedEntry (slots.map (·.key)) (key, c) (key, c')) (closedKeys slots suggest key pos v)
      (closedKeys slots true key pos v) := by
  unfold closedKeys
  cases hslot : Slot.find? slots key with
  | none =>
      refine hintedEntry_undeclared suggest fun hmem => ?_
      obtain ⟨slot, hmem, hkey⟩ := List.mem_map.mp hmem
      exact List.find?_eq_none.mp hslot slot hmem (by simpa using hkey)
  | some slot =>
      have hkey : slot.key = key := by simpa using List.find?_some hslot
      have hdeclared : key ∈ slots.map (·.key) := hkey ▸ List.mem_map_of_mem (List.mem_of_find?_eq_some hslot)
      exact Run.Agree.refl (fun c => ⟨rfl, rfl, (if_pos hdeclared).symm⟩) _

/-- **An object with hints** is checked as one without; only the undeclared keys are reported differently. -/
theorem hinted_entries (suggest : Bool) :
    Run.Agree (Hinted (slots.map (·.key))) (entries (closedKeys slots suggest) slots pos v)
      (entries (closedKeys slots true) slots pos v) := by
  cases v with
  | object fields =>
      rw [entries, entries]
      split
      · exact fun _ => ⟨⟨rfl, rfl⟩, rfl⟩
      · have hentry : ∀ e e' : String × Value, e = e' → Run.Agree (HintedEntry (slots.map (·.key)))
            (Prod.mk e.1 <$> closedKeys slots suggest e.1 pos.descend e.2)
            (Prod.mk e'.1 <$> closedKeys slots true e'.1 pos.descend e'.2) := by
          rintro e _ rfl
          exact Run.Agree.map (hintedEntry_closedKeys suggest)
        have hfields : List.Forall₂ Eq fields fields := List.forall₂_same.mpr fun _ _ => rfl
        refine Run.Agree.bind (Run.Agree.mapM hfields hentry) fun rs rs' hrs => ?_
        refine Run.Agree.bind (Run.Agree.refl (fun _ => rfl) _) fun added added' hadded => Run.Agree.pure ?_
        subst hadded
        constructor
        · have hvalues : rs'.map (fun r => (r.1, r.2.value)) = rs.map fun r => (r.1, r.2.value) :=
            forall₂_map_eq (hrs.imp fun _ _ h => Prod.ext h.1 h.2.1)
          rw [hvalues]
        · show Outcome.collection _ = Outcome.items (List.map _ (List.map _ rs)) none
          rw [List.map_map]
          exact congrArg Outcome.collection (forall₂_map_eq (hrs.imp fun _ _ h => h.2.2))
  | _ => exact fun _ => ⟨⟨rfl, rfl⟩, rfl⟩

end Checker

/-! ## What is composed in front -/

mutual

/-- The schemas composed in front of the last part of a schema, in the order in which they are asked. -/
def Schema.stages : Schema → List Schema
  | ⟨_, rule⟩ => rule.stages

/-- The schemas that a rule asks before its last part. -/
def Rule.stages : Rule → List Schema
  | .compose first second => first :: second.stages
  | _ => []

end

namespace Schema

/-- **The schema lets the value pass**: it accepts it and leaves it as it is, whatever identities are fresh. -/
def LetsPass (s : Schema) (pos : Position) (v : Value) : Prop :=
  ∀ next, ((s.check pos v).start next).result.outcome.isOk = true ∧ ((s.check pos v).start next).result.value = v

/-- The identity that is next unused when all schemas composed in front have looked at the value. -/
def nextAfterStages (s : Schema) (pos : Position) (v : Value) (next : Nat) : Nat :=
  s.stages.foldl (fun next t => ((t.check pos v).start next).next) next

variable {keys : ClosedKeys} {pos : Position} {v : Value}

/-- If all schemas in front let the value pass, the declared keys decide. -/
theorem result_check_of_stages {s : Schema} (hs : s.closedKeys? = some keys) (h : ∀ t ∈ s.stages, t.LetsPass pos v)
    (next : Nat) :
    ((s.check pos v).start next).result =
      (((objectWith keys.suggest keys.fields).check pos v).start (s.nextAfterStages pos v next)).result := by
  induction s using Schema.induction generalizing next with
  | step s ih =>
    obtain ⟨default?, rule⟩ := s
    cases rule with
    | object fields suggest =>
        obtain rfl : ⟨fields, suggest⟩ = keys := Option.some.inj hs
        rfl
    | compose first second =>
        have hsecond : second ∈ [first, second] := List.mem_cons_of_mem _ List.mem_cons_self
        obtain ⟨hok, hvalue⟩ := h first List.mem_cons_self next
        -- The first part accepts `v` and leaves it, so the second is asked about `v`, from a later supply.
        have hlast := ih second hsecond hs (fun t ht => h t (List.mem_cons_of_mem _ ht))
          ((first.check pos v).start next).next
        show ((andThen first.check second.check pos v).start next).result = _
        rw [andThen, Run.start_bind, hok, hvalue, if_pos rfl, hlast]
        rfl
    | _ => exact absurd hs (by simp [closedKeys?, Rule.closedKeys?])

/-! ## The merge with nothing -/

/-- A merge with an object without keys, on either side, has the keys of the other side. -/
theorem merge_empty_eq {s : Schema} (hs : s.mergeable? = some keys) (suggest : Bool) :
    merge .standard s (objectWith suggest []) = .ok (object keys.fields) ∧
      merge .standard (objectWith suggest []) s = .ok (object keys.fields) := by
  have hempty := mergeable?_objectWith suggest []
  constructor
  · have hsettled : List.Forall₂ (SettledOn .standard []) keys.fields keys.fields :=
      List.forall₂_same.mpr fun _ _ => ⟨rfl, rfl⟩
    refine merge_eq_ok_iff_mergeBoth.mpr ⟨keys, ⟨[], suggest⟩, keys.fields, hs, hempty, ?_, rfl⟩
    exact result_mergeBoth_eq_ok_iff.mpr ⟨keys.fields, hsettled, (List.append_nil _).symm⟩
  · refine merge_eq_ok_iff_mergeBoth.mpr ⟨⟨[], suggest⟩, keys, keys.fields, hempty, hs, ?_, rfl⟩
    refine result_mergeBoth_eq_ok_iff.mpr ⟨[], .nil, (List.filter_eq_self.mpr fun _ _ => rfl).symm⟩

/-- **Merging with nothing.** The merge of a schema with an object without keys, in either order, has the keys of the
    schema. On every document that the schemas composed in front let pass, it decides as the schema does, leaves the
    same value, and reports the same with hints at undeclared keys; and just the same, if the schema gives hints. The
    identities that it draws are those that the schemas in front have left. -/
theorem merge_empty {s : Schema} (hs : s.mergeable? = some keys) :
    merge .standard s (objectWith keys.suggest []) = .ok (object keys.fields) ∧
      merge .standard (objectWith keys.suggest []) s = .ok (object keys.fields) ∧
      ∀ (limits : Limits) (v : Value) (next : Nat), (∀ t ∈ s.stages, t.LetsPass (.root limits) v) →
        let full := ((s.validate limits v).start next).result
        let next' := s.nextAfterStages (.root limits) v next
        let merged := (((object keys.fields).validate limits v).start next').result
        merged.value = full.value ∧ merged.outcome.isOk = full.outcome.isOk ∧
          merged.outcome = full.outcome.hinted keys.fields.keys ∧
          (keys.suggest = true → merged.outcome = full.outcome) := by
  obtain ⟨hfirst, hsecond⟩ := merge_empty_eq hs keys.suggest
  refine ⟨hfirst, hsecond, fun limits v next hpass => ?_⟩
  intro full next' merged
  have hfull : full = (((objectWith keys.suggest keys.fields).check (.root limits) v).start next').result :=
    result_check_of_stages (mergeable?_eq_some_iff.mp hs).2 hpass next
  -- A hint replaces the outcome of an undeclared key, which was an acceptance: so the verdict does not change.
  have halike : AlikeAt (.root limits) (.root limits) (objectWith keys.suggest keys.fields) (object keys.fields) :=
    alikeAt_object rfl fun _ => List.forall₂_same.mpr fun _ _ => ⟨rfl, rfl, AlikeAt.refl _ _⟩
  obtain ⟨hok, -⟩ := Checked.verdict_eq_iff.mp (halike v next').1
  have hhinted : Hinted ((slots keys.fields).map (·.key)) full merged := by
    rw [hfull]
    exact (hinted_entries keys.suggest next').1
  rw [keys_slots] at hhinted
  refine ⟨hhinted.1, hfull ▸ hok.symm, hhinted.2, fun hsuggest => ?_⟩
  rw [hfull, hsuggest]
  rfl

/-- A check for objects stands in front, and `nme` is hinted at only by the merge. -/
theorem merge_empty_server :
    let keys : ClosedKeys := ⟨[("name", string), ("mode", string.withDefault (.string "fast"))], false⟩
    let s := compose (ofKind .object) (objectWith keys.suggest keys.fields)
    let v := Value.object [("nme", .null)]
    let merged := (((object keys.fields).validate .strict v).start 0).result
    s.mergeable? = some keys ∧ (∀ t ∈ s.stages, t.LetsPass (.root .strict) v) ∧
      merge .standard s (objectWith false []) = .ok (object keys.fields) ∧
      merged.value = .object [("nme", .null), ("mode", .string "fast")] ∧
      merged.outcome = .collection [(.key "nme", .passed (some "perhaps you meant name"))] := by
  intro keys s v merged
  have hs : s.mergeable? = some keys := rfl
  have hpass : ∀ t ∈ s.stages, t.LetsPass (.root .strict) v := by
    intro t ht next
    rw [List.mem_singleton.mp ht]
    exact ⟨rfl, rfl⟩
  obtain ⟨hfirst, -, hsame⟩ := merge_empty hs
  obtain ⟨hvalue, -, hhinted, -⟩ := hsame .strict v 0 hpass
  have hhint : Suggestion.hint? (Suggestion.closest "nme" ["name", "mode"]) = some "perhaps you meant name" := by
    decide
  refine ⟨hs, hpass, hfirst, hvalue, hhinted.trans ?_⟩
  show Outcome.collection [(.key "nme", .passed (Suggestion.hint? (Suggestion.closest "nme" ["name", "mode"])))] = _
  rw [hhint]

/-- The merge with nothing is another schema. It hints at `a`, where the schema gives no hints; and it does not ask for
    the `a` that is composed in front of the declared keys. -/
theorem merge_empty_not_identity :
    let quiet := objectWith false [("a", int)]
    let staged := compose (object [("a", int)]) (object [("b", int)])
    let v := Value.object [("b", .null)]
    let v' := Value.object [("a", .null)]
    (∃ m, merge .standard quiet (objectWith false []) = .ok m ∧
      ((m.validate .strict v).start 0).result.outcome ≠ ((quiet.validate .strict v).start 0).result.outcome) ∧
    ∃ m, merge .standard staged (objectWith true []) = .ok m ∧
      ((m.validate .strict v').start 0).result.outcome.isOk ≠
        ((staged.validate .strict v').start 0).result.outcome.isOk := by
  intro quiet staged v v'
  refine ⟨⟨object [("a", int)], rfl, fun h => ?_⟩, ⟨object [("b", int)], rfl, by decide⟩⟩
  have hwarning := congrArg (fun outcome => (outcome.item? (.key "b")).bind Outcome.warning?) h
  exact absurd hwarning (by decide)

end Schema

end ConfigSchema
