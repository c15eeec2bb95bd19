import ConfigSchema.Proofs.Location
import ConfigSchema.Proofs.Lockstep

/-!
# `Schema.muted` — warnings are advice, and decide nothing

`Schema.muted s` is `s` without all that warns: the hints at declared keys, the advice of open objects, and the notices
of deprecations, at any depth. A deprecation becomes what it deprecates, under its own default; its name was that of
the other anyway.

From one supply of identities, `s.muted` runs exactly as `s` does, up to the warnings in the outcome (`muted_mutes`). So
there is one equation to prove for each checker, `quiet pos v = Checked.unwarned <$> check pos v`, and as an equation of
runs it covers the events and the identities as well. What a choice takes, a composition goes on with or an object
injects is decided on its right hand side, where the warnings still are.
-/

namespace ConfigSchema

open Checker

/-! ## Schemas without advice -/

mutual

/-- The schema without anything that warns. -/
def Schema.muted : Schema → Schema
  | ⟨default?, rule⟩ => ⟨default?, rule.muted⟩

/-- The rule without anything that warns. -/
def Rule.muted : Rule → Rule
  | .compose first second => .compose first.muted second.muted
  | .array element => .array element.muted
  | .object fields _ => .object (Schema.mutedFields fields) false
  | .objects _ specifics element => .objects .silent (Schema.mutedFields specifics) element.muted
  | .either alternatives => .either (Schema.mutedList alternatives)
  | .deprecated inner _ => inner.muted.rule
  | rule => rule

/-- Declared keys, each with its schema muted. -/
def Schema.mutedFields : List (String × Schema) → List (String × Schema)
  | [] => []
  | (key, s) :: rest => (key, s.muted) :: Schema.mutedFields rest

/-- Some schemas, each of them muted. -/
def Schema.mutedList : List Schema → List Schema
  | [] => []
  | s :: rest => s.muted :: Schema.mutedList rest

end

namespace Schema

theorem muted_rule (s : Schema) : s.muted.rule = s.rule.muted := by
  cases s
  rw [muted]

theorem muted_default? (s : Schema) : s.muted.default? = s.default? := by
  cases s
  rw [muted]

theorem mutedFields_eq_map (fields : Fields Schema) :
    mutedFields fields = fields.map fun field => (field.1, field.2.muted) := by
  induction fields with
  | nil => rfl
  | cons field rest ih => rw [mutedFields, ih, List.map_cons]

theorem mutedList_eq_map (schemas : List Schema) : mutedList schemas = schemas.map muted := by
  induction schemas with
  | nil => rfl
  | cons s rest ih => rw [mutedList, ih, List.map_cons]

theorem lookup_mutedFields (fields : Fields Schema) (key : String) :
    (mutedFields fields).lookup key = (fields.lookup key).map muted := by
  rw [mutedFields_eq_map]
  exact Fields.lookup_map (fun field => field.2.muted) fields key

/-- Messages call the muted schema what they call the schema. -/
theorem name_muted (s : Schema) : s.muted.name = s.name := by
  induction s using Schema.induction with
  | step s ih =>
      obtain ⟨default?, rule⟩ := s
      rw [name_eq, muted_rule, name_eq]
      cases rule with
      | compose first second => exact ih first List.mem_cons_self
      | deprecated inner notice =>
          rw [Rule.muted, Rule.name, ← name_eq]
          exact ih inner List.mem_cons_self
      | either alternatives =>
          rw [Rule.muted, Rule.name, Rule.name, names_eq_map, names_eq_map, mutedList_eq_map, List.map_map]
          exact congrArg alternativesName (List.map_congr_left ih)
      | _ => rfl

end Schema

/-! ## Outcomes without warnings -/

namespace Outcome

variable {f : Value → Value} {g : Option String → Option String} {outcome : Outcome}

/-- The outcome with all its warnings erased. -/
def unwarned (outcome : Outcome) : Outcome := outcome.relabel id fun _ => none

theorem unwarned_collection (entries : List (Segment × Outcome)) :
    (collection entries).unwarned = collection (entries.map fun e => (e.1, e.2.unwarned)) :=
  relabel_items entries none

theorem unwarned_appendWarning (text : String) (outcome : Outcome) :
    (outcome.appendWarning text).unwarned = outcome.unwarned := by
  cases outcome <;> rfl

/-- It is all one whether identities or warnings are dropped first. -/
theorem forget_unwarned (base : Nat) (outcome : Outcome) :
    outcome.unwarned.forget base = (outcome.forget base).unwarned := by
  unfold unwarned forget
  rw [relabel_relabel, relabel_relabel]
  rfl

theorem unwarned_unwarned (outcome : Outcome) : outcome.unwarned.unwarned = outcome.unwarned :=
  relabel_relabel _ _ outcome

/-- What is reached in an outcome with other labels is so labelled. -/
theorem Reaches.exists_relabel {path : List Segment} {node : Outcome}
    (h : (outcome.relabel f g).Reaches path node) : ∃ original : Outcome, node = original.relabel f g := by
  induction outcome using Outcome.induction generalizing path with
  | step outcome ih =>
      cases h with
      | root => exact ⟨outcome, rfl⟩
      | item hitem hreach =>
          cases outcome with
          | items entries warning =>
              rw [relabel_items] at hitem
              obtain ⟨e, he, hitem⟩ := List.mem_map.mp hitem
              obtain ⟨rfl, rfl⟩ := Prod.mk.inj hitem
              exact ih e he hreach
          | _ => exact absurd hitem List.not_mem_nil

end Outcome

/-- The answer with all its warnings erased. -/
def Checked.unwarned (c : Checked) : Checked := ⟨c.outcome.unwarned, c.value⟩

theorem Checked.isOk_unwarned (c : Checked) : c.unwarned.outcome.isOk = c.outcome.isOk :=
  Outcome.isOk_relabel c.outcome

/-! ## Muted checkers -/

/-- To alter each result of a `mapM` is to alter the results. -/
theorem Run.mapM_map {α β γ : Type} (g : β → γ) (f : α → Run β) (l : List α) :
    (l.mapM fun a => g <$> f a) = List.map g <$> l.mapM f := by
  induction l with
  | nil => rfl
  | cons a rest ih => simp [ih, map_bind, bind_map_left]

namespace Checker

/-- **`quiet` runs as `check` does**, but erases the warnings. -/
def Mutes (quiet check : Checker) : Prop := ∀ pos v, quiet pos v = Checked.unwarned <$> check pos v

namespace Mutes

variable {quiet quiet' check check' : Checker}

theorem accept : Mutes accept accept := fun _ _ => rfl

theorem reject (expected : String) : Mutes (reject expected) (reject expected) := fun _ _ => rfl

theorem test (test : Value → Prop) [DecidablePred test] (expected : String) :
    Mutes (fun pos v => if test v then Checker.accept pos v else Checker.reject expected pos v)
      fun pos v => if test v then Checker.accept pos v else Checker.reject expected pos v := by
  intro pos v
  by_cases h : test v
  · simp only [if_pos h]
    exact accept pos v
  · simp only [if_neg h]
    exact reject expected pos v

/-- A warning that is added is erased. -/
theorem advising (h : quiet.Mutes check) (warning : String) : quiet.Mutes (advising warning check) := by
  intro pos v
  unfold Checker.advising
  rw [h, map_bind, map_eq_pure_bind]
  refine congrArg (check pos v >>= ·) (funext fun c => ?_)
  rw [map_pure, Checked.unwarned, Checked.unwarned, Outcome.unwarned_appendWarning]

theorem andThen (h : quiet.Mutes check) (h' : quiet'.Mutes check') :
    (andThen quiet quiet').Mutes (andThen check check') := by
  intro pos v
  unfold Checker.andThen
  rw [h, bind_map_left, map_bind]
  refine congrArg (check pos v >>= ·) (funext fun c => ?_)
  rw [Checked.isOk_unwarned]
  split
  · exact h' pos c.value
  · rfl

theorem firstOf (expected : String) {quiets checks : List Checker} (h : List.Forall₂ Mutes quiets checks) :
    (firstOf expected quiets).Mutes (firstOf expected checks) := by
  induction h with
  | nil => exact reject expected
  | @cons quiet check _ _ hquiet _ ih =>
      intro pos v
      unfold Checker.firstOf
      rw [hquiet, bind_map_left, map_bind]
      refine congrArg (check pos v >>= ·) (funext fun c => ?_)
      rw [Checked.isOk_unwarned]
      split
      · rfl
      · exact ih pos c.value

theorem tooDeep : Mutes tooDeep tooDeep := fun _ _ => rfl

theorem elements (h : quiet.Mutes check) : (elements quiet).Mutes (elements check) := by
  intro pos v
  cases v with
  | array items =>
      rw [Checker.elements, Checker.elements]
      split
      · exact tooDeep pos _
      · rw [funext (h pos.descend), Run.mapM_map, bind_map_left, map_bind]
        refine congrArg (_ >>= ·) (funext fun results => ?_)
        have hreported : ((results.map Checked.unwarned).mapIdx fun i r => (Segment.index i, r.outcome)) =
            (results.mapIdx fun i r => (Segment.index i, r.outcome)).map fun e => (e.1, e.2.unwarned) := by
          apply List.ext_getElem?
          intro i
          simp only [List.getElem?_mapIdx, List.getElem?_map, Option.map_map]
          rfl
        rw [map_pure, hreported, List.map_map, Checked.unwarned, Outcome.unwarned_collection]
        rfl
  | _ => exact reject _ pos _

/-- The injections of a muted object are those of the object: nothing is reported about them anyway. -/
theorem entries {quietOf checkOf : String → Checker} {quiets slots : List Slot}
    (hcheck : ∀ key, (quietOf key).Mutes (checkOf key))
    (hslots : ∀ fields pos, ((Slot.missing quiets fields).mapM fun m => m.1.inject pos m.2) =
      (Slot.missing slots fields).mapM fun m => m.1.inject pos m.2) :
    (entries quietOf quiets).Mutes (entries checkOf slots) := by
  intro pos v
  cases v with
  | object fields =>
      rw [Checker.entries, Checker.entries]
      split
      · exact tooDeep pos _
      · have hentry : (fun e : String × Value => Prod.mk e.1 <$> quietOf e.1 pos.descend e.2) = fun e =>
            (fun r : String × Checked => (r.1, r.2.unwarned)) <$> (Prod.mk e.1 <$> checkOf e.1 pos.descend e.2) := by
          funext e
          rw [hcheck, Functor.map_map, Functor.map_map]
        rw [hentry, Run.mapM_map, bind_map_left, map_bind, hslots]
        refine congrArg (_ >>= ·) (funext fun results => ?_)
        rw [map_bind]
        refine congrArg (_ >>= ·) (funext fun added => ?_)
        rw [map_pure, Checked.unwarned, Outcome.unwarned_collection, List.map_map, List.map_map, List.map_map]
        rfl
  | _ => exact reject _ pos _

end Mutes

end Checker

/-! ## Muted schemas -/

namespace Schema

variable {base : Nat} {s : Schema}

/-- The check of an injected default may warn; nobody hears of it. -/
theorem inject_muted {t : Schema} (h : t.muted.check.Mutes t.check) (key : String) (pos : Position) (d : Value) :
    Slot.inject pos ⟨key, t.muted.name, t.muted.default?, t.muted.check⟩ d =
      Slot.inject pos ⟨key, t.name, t.default?, t.check⟩ d := by
  unfold Slot.inject
  simp only [name_muted, h pos, bind_map_left]
  rfl

/-- The same keys are filled, with the same defaults. -/
theorem injections_muted {fields : Fields Schema} (h : ∀ t ∈ fields.map Prod.snd, t.muted.check.Mutes t.check)
    (present : Fields Value) (pos : Position) :
    ((Slot.missing (slots (mutedFields fields)) present).mapM fun m => m.1.inject pos m.2) =
      (Slot.missing (slots fields) present).mapM fun m => m.1.inject pos m.2 := by
  induction fields with
  | nil => rfl
  | cons field rest ih =>
      obtain ⟨key, t⟩ := field
      have hrest := ih fun t' ht' => h t' (List.mem_cons_of_mem _ ht')
      rw [mutedFields, missing_slots_cons, missing_slots_cons, muted_default?]
      split
      · exact hrest
      · cases hd : t.default? with
        | none => exact hrest
        | some d =>
            have hinject := inject_muted (h t List.mem_cons_self) key pos d
            rw [muted_default?, hd] at hinject
            simp only [List.mapM_cons, hinject, hrest]

/-- Both kinds of object rules check an entry like their muted forms, up to a hint or an advice. -/
theorem keyCheck_mutes {rule : Rule} (hrule : rule.IsKeyed) (h : ∀ t ∈ rule.parts, t.muted.check.Mutes t.check)
    (key : String) : (rule.muted.keyCheck key).Mutes (rule.keyCheck key) := by
  cases rule with
  | object fields suggest =>
      rw [Rule.muted, Rule.keyCheck, Rule.keyCheck, closedKeys, closedKeys, find?_slots, find?_slots,
        lookup_mutedFields]
      cases hl : fields.lookup key with
      | none =>
          exact undeclared_cases (P := fun check => Mutes accept check) suggest _ key .accept fun hint =>
            Mutes.accept.advising hint
      | some t => exact h t (List.mem_map_of_mem (Fields.mem_of_lookup hl))
  | objects advice specifics element =>
      have hcheck : Mutes (((Slot.find? (slots (mutedFields specifics)) key).map (·.check)).getD element.muted.check)
          (((Slot.find? (slots specifics) key).map (·.check)).getD element.check) := by
        rw [find?_slots, find?_slots, lookup_mutedFields]
        cases hl : specifics.lookup key with
        | none => exact h element List.mem_cons_self
        | some t => exact h t (List.mem_cons_of_mem _ (List.mem_map_of_mem (Fields.mem_of_lookup hl)))
      rw [Rule.muted, Rule.keyCheck, Rule.keyCheck, openKeys, openKeys]
      cases advice.warning? key with
      | none => exact hcheck
      | some warning => exact hcheck.advising warning
  | _ => exact absurd hrule id

/-- **The muted schema runs as the schema does**, at every position, and erases the warnings. -/
theorem muted_mutes (hc : s.CustomFree) : s.muted.check.Mutes s.check := by
  induction s using Schema.induction with
  | step s ih =>
    obtain ⟨default?, rule⟩ := s
    have ihp : ∀ t ∈ rule.parts, t.muted.check.Mutes t.check := fun t ht => ih t ht (hc.part ht)
    have hdeclared : ∀ t ∈ rule.declared.map Prod.snd, t.muted.check.Mutes t.check := by
      intro t ht
      obtain ⟨field, hf, rfl⟩ := List.mem_map.mp ht
      exact ihp field.2 (Rule.mem_parts_of_declared hf)
    have hkeyed : rule.IsKeyed → (entries rule.muted.keyCheck (slots (mutedFields rule.declared))).Mutes
        (entries rule.keyCheck (slots rule.declared)) :=
      fun hrule => .entries (keyCheck_mutes hrule ihp) (injections_muted hdeclared)
    rw [check_eq, check_eq, muted_rule]
    cases rule with
    | any => exact .accept
    | kind k => exact .test _ _
    | int => exact .test _ _
    | oneOf literals => exact .test _ _
    | compose first second =>
        exact .andThen (ihp first List.mem_cons_self) (ihp second (List.mem_cons_of_mem _ List.mem_cons_self))
    | array element => exact .elements (ihp element List.mem_cons_self)
    | object fields suggest => exact hkeyed trivial
    | objects advice specifics element => exact hkeyed trivial
    | either alternatives =>
        have hnames : names (mutedList alternatives) = names alternatives := by
          rw [names_eq_map, names_eq_map, mutedList_eq_map, List.map_map]
          exact List.map_congr_left fun t _ => name_muted t
        show (firstOf (alternativesName (names (mutedList alternatives))) (checks (mutedList alternatives))).Mutes
          (firstOf (alternativesName (names alternatives)) (checks alternatives))
        rw [hnames, checks_eq_map, checks_eq_map, mutedList_eq_map, List.map_map]
        refine Mutes.firstOf _ ?_
        rw [List.forall₂_map_left_iff, List.forall₂_map_right_iff, List.forall₂_same]
        exact ihp
    | deprecated inner notice =>
        rw [Rule.muted, ← check_eq]
        exact (ihp inner List.mem_cons_self).advising notice
    | custom name check => exact absurd hc.here id

/-- **Warnings are advice only.** A schema and its muted form come to the same verdict, report the same outcome but for
    the warnings, leave the same value and log the same events, and the muted form never warns. Where the two validations
    draw different identities, the outcomes and the values are the same but for these. -/
theorem validate_muted (hc : s.CustomFree) (hl : s.OldLiterals base) (limits : Limits) (v : Value) {next next' : Nat}
    (hn : base ≤ next) (hn' : base ≤ next') :
    let ran := (s.validate limits v).start next
    let quiet := (s.muted.validate limits v).start next'
    quiet.result.outcome.isOk = ran.result.outcome.isOk ∧
      quiet.result.outcome.unwarned.Resembles base ran.result.outcome.unwarned ∧
      quiet.result.value.Resembles base ran.result.value ∧ quiet.events = ran.events ∧
      (∀ path node, quiet.result.outcome.Reaches path node → node.warning? = none) ∧
      (next' = next → quiet.result = ran.result.unwarned) := by
  intro ran quiet
  -- Let `s` itself run from the other supply.
  let ran' := (s.validate limits v).start next'
  have hquiet : quiet = ⟨ran'.result.unwarned, ran'.events, ran'.next⟩ := by
    show ((s.muted.check (.root limits) v).start next') = _
    rw [muted_mutes hc, Run.start_map]
    rfl
  obtain ⟨hresults, hevents⟩ := validate_inStep hc hl limits v
  obtain ⟨houtcome, hvalue⟩ := (hresults next' next hn' hn).1
  rw [hquiet]
  refine ⟨?_, ?_, hvalue, hevents next' next hn' hn, fun path node hreach => ?_, ?_⟩
  · exact (Outcome.isOk_relabel _).trans houtcome.isOk_eq
  · show ran'.result.outcome.unwarned.unwarned.Resembles base ran.result.outcome.unwarned
    rw [Outcome.unwarned_unwarned, Outcome.Resembles, Outcome.forget_unwarned, Outcome.forget_unwarned, houtcome]
  · obtain ⟨original, rfl⟩ := Outcome.Reaches.exists_relabel hreach
    exact Outcome.warning?_relabel original
  · rintro rfl
    rfl

/-- One key is warned about. The notices of deprecations are on an alternative that fails and on two defaults that are
    injected, one of which is then filled in turn. -/
theorem validate_muted_plugins :
    let runner := object [("run", function.withDefault (.function ⟨0, "run"⟩))]
    let lint := (deprecated runner none).withDefault (.object [])
    let plugins := objects ⟨some ["lint"], none⟩ [("lint", lint)] (either [deprecated bool none, any])
    let s := object [("plugins", plugins), ("mode", (deprecated string none).withDefault (.string "fast"))]
    let quietRunner := objectWith false [("run", function.withDefault (.function ⟨0, "run"⟩))]
    let quietPlugins := objects .silent [("lint", quietRunner.withDefault (.object []))] (either [bool, any])
    let quiet := objectWith false [("plugins", quietPlugins), ("mode", string.withDefault (.string "fast"))]
    let v := Value.object [("plugins", .object [("fmt", .null)])]
    let ran := (s.validate .strict v).start 7
    let quietRan := (quiet.validate .strict v).start 9
    let left := fun id => Value.object [
      ("plugins", .object [("fmt", .null), ("lint", .object [("run", .function ⟨id, "run"⟩)])]),
      ("mode", .string "fast")]
    let warned := Outcome.passed (some (KeyAdvice.standardWarning ["lint"] "fmt"))
    s.CustomFree ∧ s.OldLiterals 7 ∧ s.muted = quiet ∧ ran.result.outcome.Reaches [.key "plugins", .key "fmt"] warned ∧
      ran.result.value = left 7 ∧ quietRan.result.value = left 9 ∧
      quietRan.result.outcome.isOk = ran.result.outcome.isOk ∧
      quietRan.result.outcome.unwarned.Resembles 7 ran.result.outcome.unwarned ∧
      quietRan.result.value.Resembles 7 ran.result.value ∧ quietRan.events = ran.events ∧
      ∀ path node, quietRan.result.outcome.Reaches path node → node.warning? = none := by
  intro runner lint plugins s quietRunner quietPlugins quiet v ran quietRan left warned
  have hc : s.CustomFree := by decide
  have hl : s.OldLiterals 7 := by decide
  have hreach : ran.result.outcome.Reaches [.key "plugins", .key "fmt"] warned :=
    .item (.head _) (.item (.head _) (.root _))
  obtain ⟨hok, houtcome, hvalue, hevents, hquiet, -⟩ :=
    validate_muted hc hl .strict v (Nat.le_refl 7) (Nat.le_add_right 7 2)
  exact ⟨hc, hl, rfl, hreach, rfl, rfl, hok, houtcome, hvalue, hevents, hquiet⟩

end Schema

end ConfigSchema
