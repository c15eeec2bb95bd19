import ConfigSchema.Proofs.Conformance

/-!
# `Schema.bare` — what is reported without the defaults

`Schema.bare s` is `s` without the defaults of its declared keys, at any depth. It injects nothing, so it is a
schema that only looks. Where all decisions are made before anything is injected (`PlainChoices`), `s` reports
what `s.bare` reports, to the last warning (`validate_bare`): injected entries have no place in an outcome, and
their checks leave no trace.

The two validations draw different identities, for `s.bare` draws none. So their runs are compared from any two
supplies (`SameOutcome`), one lemma for each checker. The values that the refusals show are part of an outcome;
they are those of the document as it was, since whatever has a say before a refusal leaves the value alone
(`InjectionFree.leaves`).
-/

namespace ConfigSchema

open Checker

/-! ## Schemas without defaults -/

mutual

/-- The schema without the defaults of the keys declared in it. Its own default is none of these: it belongs to
    the place where the schema is used. -/
def Schema.bare : Schema → Schema
  | ⟨default?, rule⟩ => ⟨default?, rule.bare⟩

/-- The rule without the defaults of the keys declared in it. -/
def Rule.bare : Rule → Rule
  | .compose first second => .compose first.bare second.bare
  | .array element => .array element.bare
  | .object fields suggest => .object (Schema.bareFields fields) suggest
  | .objects advice specifics element => .objects advice (Schema.bareFields specifics) element.bare
  | .either alternatives => .either (Schema.bareList alternatives)
  | .deprecated inner notice => .deprecated inner.bare notice
  | rule => rule

/-- Declared keys that have lost their defaults, on the outside and inside. -/
def Schema.bareFields : List (String × Schema) → List (String × Schema)
  | [] => []
  | (key, ⟨_, rule⟩) :: rest => (key, ⟨none, rule.bare⟩) :: Schema.bareFields rest

/-- Each schema of the list without the defaults of the keys declared in it. -/
def Schema.bareList : List Schema → List Schema
  | [] => []
  | s :: rest => s.bare :: Schema.bareList rest

end

namespace Schema

theorem bare_rule (s : Schema) : s.bare.rule = s.rule.bare := by
  cases s
  rw [bare]

theorem bareFields_eq_map (fields : Fields Schema) :
    bareFields fields = fields.map fun field => (field.1, field.2.bare.withoutDefault) := by
  induction fields with
  | nil => rfl
  | cons field rest ih =>
      obtain ⟨key, s⟩ := field
      cases s
      rw [bareFields, ih, List.map_cons, bare, withoutDefault]

theorem bareList_eq_map (schemas : List Schema) : bareList schemas = schemas.map bare := by
  induction schemas with
  | nil => rfl
  | cons s rest ih => rw [bareList, ih, List.map_cons]

theorem keys_bareFields (fields : Fields Schema) : Fields.keys (bareFields fields) = fields.keys := by
  rw [bareFields_eq_map, Fields.keys, Fields.keys, List.map_map]
  rfl

theorem lookup_bareFields (fields : Fields Schema) (key : String) :
    (bareFields fields).lookup key = (fields.lookup key).map fun s => s.bare.withoutDefault := by
  rw [bareFields_eq_map]
  exact Fields.lookup_map (fun field => field.2.bare.withoutDefault) fields key

/-- What is inside the bare schema is, but for its own default, the bare form of what was inside. -/
theorem exists_part_of_bare {s t : Schema} (h : t ∈ s.bare.rule.parts) :
    ∃ u ∈ s.rule.parts, t.rule = u.bare.rule := by
  obtain ⟨default?, rule⟩ := s
  rw [bare_rule] at h
  have hfields : ∀ fields : Fields Schema, t ∈ (bareFields fields).map Prod.snd →
      ∃ u ∈ fields.map Prod.snd, t.rule = u.bare.rule := by
    intro fields ht
    rw [bareFields_eq_map, List.map_map] at ht
    obtain ⟨field, hf, rfl⟩ := List.mem_map.mp ht
    exact ⟨field.2, List.mem_map_of_mem hf, rfl⟩
  cases rule with
  | compose first second =>
      rcases List.mem_cons.mp h with rfl | h
      · exact ⟨first, List.mem_cons_self, rfl⟩
      · exact ⟨second, List.mem_cons_of_mem _ List.mem_cons_self, by rw [List.mem_singleton.mp h]⟩
  | array element => exact ⟨element, List.mem_cons_self, by rw [List.mem_singleton.mp h]⟩
  | object fields suggest => exact hfields fields h
  | objects advice specifics element =>
      rcases List.mem_cons.mp h with rfl | h
      · exact ⟨element, List.mem_cons_self, rfl⟩
      · obtain ⟨u, hu, hrule⟩ := hfields specifics h
        exact ⟨u, List.mem_cons_of_mem _ hu, hrule⟩
  | either alternatives =>
      rw [Rule.bare, bareList_eq_map] at h
      obtain ⟨u, hu, rfl⟩ := List.mem_map.mp h
      exact ⟨u, hu, rfl⟩
  | deprecated inner notice => exact ⟨inner, List.mem_cons_self, by rw [List.mem_singleton.mp h]⟩
  | _ => exact absurd h List.not_mem_nil

/-- What holds of the rules of bare schemas holds everywhere in a bare schema. -/
theorem everywhere_bare {p q : Rule → Prop} (hpq : ∀ rule, p rule → q rule.bare) {s : Schema}
    (h : s.Everywhere p) : s.bare.Everywhere q := by
  induction s using Schema.induction with
  | step s ih =>
      rw [everywhere_iff, bare_rule]
      refine ⟨hpq _ h.here, fun t ht => ?_⟩
      rw [← bare_rule] at ht
      obtain ⟨u, hu, hrule⟩ := exists_part_of_bare ht
      rw [everywhere_iff, hrule, ← everywhere_iff]
      exact ih u hu (h.part hu)

theorem customFree_bare {s : Schema} (h : s.CustomFree) : s.bare.CustomFree := by
  refine everywhere_bare (fun rule hrule => ?_) h
  cases rule with
  | custom name check => exact absurd hrule id
  | _ => trivial

/-- There is nothing to inject in a bare schema. -/
theorem injectionFree_bare (s : Schema) : s.bare.InjectionFree := by
  refine everywhere_bare (p := fun _ => True) (fun rule _ => ?_) (everywhere_of_forall s fun _ => trivial)
  have hfields : ∀ fields : Fields Schema, ∀ field ∈ bareFields fields, field.2.default? = none := by
    intro fields field hf
    rw [bareFields_eq_map] at hf
    obtain ⟨field, -, rfl⟩ := List.mem_map.mp hf
    rfl
  cases rule with
  | object fields suggest => exact hfields fields
  | objects advice specifics element => exact hfields specifics
  | _ => exact fun field hf => absurd hf List.not_mem_nil

/-- Messages call the bare schema what they call the schema. -/
theorem name_bare (s : Schema) : s.bare.name = s.name := by
  induction s using Schema.induction with
  | step s ih =>
      obtain ⟨default?, rule⟩ := s
      rw [name_eq, bare_rule, name_eq]
      cases rule with
      | compose first second => exact ih first List.mem_cons_self
      | deprecated inner notice => exact ih inner List.mem_cons_self
      | either alternatives =>
          rw [Rule.bare, Rule.name, Rule.name, names_eq_map, names_eq_map, bareList_eq_map, List.map_map]
          exact congrArg alternativesName (List.map_congr_left ih)
      | _ => rfl

end Schema

/-! ## One outcome -/

/-- **Both runs report one outcome**, whatever supplies they start from. -/
def SameOutcome (r s : Run Checked) : Prop := Run.Coincide (fun a b => a.outcome = b.outcome) r s

/-- Every result of the run has the value that was given to it. -/
def Leaves (v : Value) (r : Run Checked) : Prop := r.Ensures 0 fun c => c.value = v

namespace Checker

variable {pos : Position} {v : Value} {first second first' second' : Checker}

/-! ### Scalars and combinations -/

theorem test_sameOutcome (test : Prop) [Decidable test] (expected : String) :
    SameOutcome (if test then accept pos v else reject expected pos v)
      (if test then accept pos v else reject expected pos v) := by
  by_cases h : test
  · rw [if_pos h]
    exact Run.Coincide.pure rfl
  · rw [if_neg h]
    exact Run.Coincide.pure rfl

theorem advising_sameOutcome (warning : String) (h : SameOutcome (first pos v) (first' pos v)) :
    SameOutcome (advising warning first pos v) (advising warning first' pos v) := by
  refine Run.Coincide.bind h fun a b hab => Run.Coincide.pure ?_
  show a.outcome.appendWarning warning = b.outcome.appendWarning warning
  rw [hab]

/-- The second checks see the value as the first ones have found it. -/
theorem andThen_sameOutcome (hfirst : SameOutcome (first pos v) (first' pos v))
    (hleft : Leaves v (first pos v)) (hright : Leaves v (first' pos v))
    (hsecond : SameOutcome (second pos v) (second' pos v)) :
    SameOutcome (andThen first second pos v) (andThen first' second' pos v) := by
  refine Run.Coincide.bind (hfirst.and hleft hright) fun a b hab => ?_
  obtain ⟨houtcome, hvalue, hvalue'⟩ := hab
  rw [houtcome, hvalue, hvalue']
  split
  · exact hsecond
  · exact Run.Coincide.pure houtcome

/-- Choices report the same, in the same words, if their alternatives leave the value alone. -/
theorem firstOf_sameOutcome (expected : String) {checks checks' : List Checker}
    (h : List.Forall₂ (fun check check' => SameOutcome (check pos v) (check' pos v) ∧
      Leaves v (check pos v) ∧ Leaves v (check' pos v)) checks checks') :
    SameOutcome (firstOf expected checks pos v) (firstOf expected checks' pos v) := by
  induction h with
  | nil => exact Run.Coincide.pure rfl
  | cons hcheck _ ih =>
      refine Run.Coincide.bind (hcheck.1.and hcheck.2.1 hcheck.2.2) fun a b hab => ?_
      obtain ⟨houtcome, hvalue, hvalue'⟩ := hab
      rw [houtcome, hvalue, hvalue']
      split
      · exact Run.Coincide.pure houtcome
      · exact ih

/-! ### Containers -/

theorem tooDeep_sameOutcome : SameOutcome (tooDeep pos v) (tooDeep pos v) :=
  Run.Coincide.after (Run.Coincide.pure rfl)

/-- Elements with equal outcomes are reported as equal items. -/
theorem reported_elements (segment : Nat → Segment) {rs rs' : List Checked}
    (h : List.Forall₂ (fun a b => a.outcome = b.outcome) rs rs') :
    (rs.mapIdx fun i r => (segment i, r.outcome)) = rs'.mapIdx fun i r => (segment i, r.outcome) := by
  have hitems := (forall₂_reported segment h).imp fun _ _ he => Prod.ext he.1 he.2
  rwa [List.forall₂_eq_eq_eq] at hitems

theorem elements_sameOutcome {element element' : Checker}
    (h : ∀ x, SameOutcome (element pos.descend x) (element' pos.descend x)) :
    SameOutcome (elements element pos v) (elements element' pos v) := by
  cases v with
  | array items =>
      rw [elements, elements]
      split
      · exact tooDeep_sameOutcome
      · refine Run.Coincide.bind (Run.Coincide.mapM fun x _ => h x) fun rs rs' hrs => ?_
        exact Run.Coincide.pure (congrArg Outcome.collection (reported_elements Segment.index hrs))
  | _ => exact Run.Coincide.pure rfl

/-- The entries of an object are reported under their keys; what is injected behind them is not reported. -/
theorem entries_sameOutcome {checkOf checkOf' : String → Checker} (slots slots' : List Slot)
    (h : ∀ key x, SameOutcome (checkOf key pos.descend x) (checkOf' key pos.descend x)) :
    SameOutcome (entries checkOf slots pos v) (entries checkOf' slots' pos v) := by
  cases v with
  | object fields =>
      rw [entries, entries]
      split
      · exact tooDeep_sameOutcome
      · have hentry : ∀ e ∈ fields, Run.Coincide (fun a b => a.1 = b.1 ∧ a.2.outcome = b.2.outcome)
            (Prod.mk e.1 <$> checkOf e.1 pos.descend e.2) (Prod.mk e.1 <$> checkOf' e.1 pos.descend e.2) := by
          intro e _
          refine Run.Coincide.map fun next next' => ?_
          exact ⟨rfl, h e.1 e.2 next next'⟩
        refine Run.Coincide.bind (Run.Coincide.mapM hentry) fun rs rs' hrs => ?_
        have hreported : rs.map (fun r => (Segment.key r.1, r.2.outcome)) =
            rs'.map fun r => (Segment.key r.1, r.2.outcome) :=
          (forall₂_map_eq (hrs.imp fun _ _ hab => by rw [hab.1, hab.2])).symm
        -- Whatever the injections add, the outcomes are settled.
        exact fun next next' => congrArg Outcome.collection hreported
  | _ => exact Run.Coincide.pure rfl

theorem undeclared_sameOutcome (suggest : Bool) (declared : List String) (key : String) :
    SameOutcome (undeclared suggest declared key pos v) (undeclared suggest declared key pos v) := by
  have haccept : SameOutcome (accept pos v) (accept pos v) := Run.Coincide.pure rfl
  exact undeclared_cases (P := fun check => SameOutcome (check pos v) (check pos v)) suggest declared key haccept
    fun hint => advising_sameOutcome hint haccept

end Checker

/-! ## Bare schemas report the same -/

namespace Schema

/-- An injection-free schema leaves every value alone. -/
theorem InjectionFree.leaves {s : Schema} (h : s.InjectionFree) (hc : s.CustomFree) (pos : Position)
    (v : Value) : Leaves v (s.check pos v) :=
  Run.Ensures.mono (h.gives hc 0 pos v) fun _ hr => hr.2

theorem keys_slots (fields : Fields Schema) : (slots fields).map (·.key) = fields.keys := by
  rw [slots_eq_map, List.map_map]
  rfl

/-- What a schema demands does not depend on its own default. -/
theorem check_withoutDefault (s : Schema) : s.withoutDefault.check = s.check := by
  rw [check_eq, check_eq s, withoutDefault]

/-- Both kinds of object rules check an entry like their bare forms. -/
theorem keyCheck_sameOutcome {rule : Rule} {pos : Position} (hrule : rule.IsKeyed)
    (h : ∀ t ∈ rule.parts, ∀ v, SameOutcome (t.check pos v) (t.bare.check pos v)) (key : String) (v : Value) :
    SameOutcome (rule.keyCheck key pos v) (rule.bare.keyCheck key pos v) := by
  cases rule with
  | object fields suggest =>
      rw [Rule.bare, Rule.keyCheck, Rule.keyCheck, closedKeys, closedKeys, find?_slots, find?_slots,
        lookup_bareFields, keys_slots, keys_slots, keys_bareFields]
      cases hl : fields.lookup key with
      | none => exact undeclared_sameOutcome suggest (Fields.keys fields) key
      | some s =>
          show SameOutcome (s.check pos v) (s.bare.withoutDefault.check pos v)
          rw [check_withoutDefault]
          exact h s (List.mem_map_of_mem (Fields.mem_of_lookup hl)) v
  | objects advice specifics element =>
      have hcheck : SameOutcome
          ((((Slot.find? (slots specifics) key).map (·.check)).getD element.check) pos v)
          ((((Slot.find? (slots (bareFields specifics)) key).map (·.check)).getD element.bare.check) pos v) := by
        rw [find?_slots, find?_slots, lookup_bareFields]
        cases hl : specifics.lookup key with
        | none => exact h element List.mem_cons_self v
        | some s =>
            show SameOutcome (s.check pos v) (s.bare.withoutDefault.check pos v)
            rw [check_withoutDefault]
            exact h s (List.mem_cons_of_mem _ (List.mem_map_of_mem (Fields.mem_of_lookup hl))) v
      rw [Rule.bare, Rule.keyCheck, Rule.keyCheck, openKeys, openKeys]
      cases advice.warning? key with
      | none => exact hcheck
      | some warning => exact advising_sameOutcome warning hcheck
  | _ => exact absurd hrule id

/-- **The checks of a schema and of its bare form report one outcome**, at every position. -/
theorem bare_sameOutcome {s : Schema} (hc : s.CustomFree) (hp : s.PlainChoices) (pos : Position) (v : Value) :
    SameOutcome (s.check pos v) (s.bare.check pos v) := by
  induction s using Schema.induction generalizing pos v with
  | step s ih =>
    obtain ⟨default?, rule⟩ := s
    have ihp : ∀ t ∈ rule.parts, ∀ pos v, SameOutcome (t.check pos v) (t.bare.check pos v) :=
      fun t ht pos v => ih t ht (hc.part ht) (hp.part ht) pos v
    have hbare : ∀ t ∈ rule.parts, Leaves v (t.bare.check pos v) := fun t ht =>
      (injectionFree_bare t).leaves (customFree_bare (hc.part ht)) pos v
    have hkeyed : ∀ slots slots', rule.IsKeyed → SameOutcome (entries rule.keyCheck slots pos v)
        (entries rule.bare.keyCheck slots' pos v) := fun slots slots' hrule =>
      entries_sameOutcome slots slots' fun key => keyCheck_sameOutcome hrule (fun t ht => ihp t ht pos.descend) key
    rw [check_eq, check_eq, bare_rule]
    cases rule with
    | any => exact Run.Coincide.pure rfl
    | kind k => exact test_sameOutcome _ _
    | int => exact test_sameOutcome _ _
    | oneOf literals => exact test_sameOutcome _ _
    | compose first second =>
        have hfirst : first ∈ [first, second] := List.mem_cons_self
        have hsecond : second ∈ [first, second] := List.mem_cons_of_mem _ List.mem_cons_self
        have hfree : first.InjectionFree := hp.here
        exact andThen_sameOutcome (ihp first hfirst pos v) (hfree.leaves (hc.part hfirst) pos v)
          (hbare first hfirst) (ihp second hsecond pos v)
    | either alternatives =>
        have hfree : ∀ t ∈ alternatives, t.InjectionFree := hp.here
        have hnames : names (bareList alternatives) = names alternatives := by
          rw [names_eq_map, names_eq_map, bareList_eq_map, List.map_map]
          exact List.map_congr_left fun t _ => name_bare t
        show SameOutcome (firstOf (alternativesName (names alternatives)) (checks alternatives) pos v)
          (firstOf (alternativesName (names (bareList alternatives))) (checks (bareList alternatives)) pos v)
        rw [hnames, checks_eq_map, checks_eq_map, bareList_eq_map, List.map_map]
        refine firstOf_sameOutcome _ ?_
        rw [List.forall₂_map_left_iff, List.forall₂_map_right_iff, List.forall₂_same]
        exact fun t ht => ⟨ihp t ht pos v, (hfree t ht).leaves (hc.part ht) pos v, hbare t ht⟩
    | deprecated inner notice => exact advising_sameOutcome notice (ihp inner List.mem_cons_self pos v)
    | array element => exact elements_sameOutcome (ihp element List.mem_cons_self pos.descend)
    | object fields suggest => exact hkeyed _ _ trivial
    | objects advice specifics element => exact hkeyed _ _ trivial
    | custom name check => exact absurd hc.here id

/-- **Defaults change nothing that is reported.** With choices that inject nothing, a schema and its bare form
    report one and the same outcome, and the bare form leaves the document as it was. -/
theorem validate_bare {s : Schema} (hc : s.CustomFree) (hp : s.PlainChoices) (limits : Limits) (v : Value)
    (next next' : Nat) :
    let full := ((s.validate limits v).start next).result
    let bare := ((s.bare.validate limits v).start next').result
    full.outcome = bare.outcome ∧ bare.value = v := by
  intro full bare
  have hleaves : Leaves v (s.bare.check (.root limits) v) := (injectionFree_bare s).leaves (customFree_bare hc) _ v
  exact ⟨bare_sameOutcome hc hp (.root limits) v next next', (hleaves next' (Nat.zero_le next')).1⟩

/-- One key is missing and injected, a present one fails, and its neighbour is chosen between alternatives. -/
theorem validate_bare_watcher :
    let s := object [("host", string), ("tls", object [("on", bool.withDefault (.bool true))]),
      ("mode", string.withDefault (.string "fast")), ("watch", either [string, array string])]
    let v := Value.object [("host", .null), ("tls", .object []), ("watch", .array [.string "a"])]
    let bare := object [("host", string), ("tls", object [("on", bool)]), ("mode", string),
      ("watch", either [string, array string])]
    s.CustomFree ∧ s.PlainChoices ∧ s.bare = bare ∧
      ((s.validate .strict v).start 0).result.value =
        .object [("host", .null), ("tls", .object [("on", .bool true)]), ("watch", .array [.string "a"]),
          ("mode", .string "fast")] ∧
      ((s.validate .strict v).start 0).result.outcome = ((bare.validate .strict v).start 0).result.outcome := by
  intro s v bare
  have hc : s.CustomFree := by decide
  have hp : s.PlainChoices := by decide
  exact ⟨hc, hp, rfl, rfl, (validate_bare hc hp .strict v 0 0).1⟩

end Schema

end ConfigSchema
