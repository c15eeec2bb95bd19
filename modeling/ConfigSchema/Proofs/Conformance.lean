import Mathlib.Algebra.Ring.Nat
import ConfigSchema.Proofs.Gives
import ConfigSchema.Proofs.Restrictions

/-!
# `Schema.Conforms` — which documents are accepted

`Conforms cap s depth v` says, without running anything, that `v` is what `s` demands at this depth: one clause for
each rule, the value being read as it is. A validation does more than read. It writes defaults into the value while it
decides, and an alternative or a second part sees what was written before. Where that cannot happen
(`PlainChoices`), a validation accepts exactly the documents that conform at depth 0, the cap being the `maxDepth` of
its limits (`isOk_validate_iff`).

The proof goes over the verdicts of `Schema.Gives`, at every position of a walk. First, an injection-free schema leaves
every value as it is. So the alternatives of a choice all see the original value, and the verdict of each rule is its
clause of `Conforms` (`gives_decides`); the injected entries of an object never enter its verdict.
-/

namespace ConfigSchema

/-! ## Conformance -/

/-- **Conformance** at a depth: what each rule demands of a value. A container must not lie deeper than the cap, and
    its items conform one level further down. Levels are counted in 64 bits, and the greatest count stays. -/
inductive Schema.Conforms (cap : Nat) : Schema → Nat → Value → Prop
  /-- Anything conforms. -/
  | any {default? depth v} : Conforms cap ⟨default?, .any⟩ depth v
  | kind {default? k depth v} (h : v.kind = k) : Conforms cap ⟨default?, .kind k⟩ depth v
  | int {default? depth v} (h : v.kind = .number) : Conforms cap ⟨default?, .int⟩ depth v
  | oneOf {default? literals depth v l} (hl : l ∈ literals) (h : l.strictEq v = true) :
      Conforms cap ⟨default?, .oneOf literals⟩ depth v
  /-- Both parts. -/
  | compose {default? first second depth v} (h : Conforms cap first depth v) (h' : Conforms cap second depth v) :
      Conforms cap ⟨default?, .compose first second⟩ depth v
  /-- Some alternative. -/
  | either {default? alternatives depth v s} (hs : s ∈ alternatives) (h : Conforms cap s depth v) :
      Conforms cap ⟨default?, .either alternatives⟩ depth v
  | deprecated {default? inner notice depth v} (h : Conforms cap inner depth v) :
      Conforms cap ⟨default?, .deprecated inner notice⟩ depth v
  /-- An array, every element of which conforms. -/
  | array {default? element depth items} (hdepth : depth ≤ cap)
      (h : ∀ v ∈ items, Conforms cap element (min (depth + 1) (2 ^ 64 - 1)) v) :
      Conforms cap ⟨default?, .array element⟩ depth (.array items)
  /-- An object, every present declared key of which has a conforming value. -/
  | object {default? declared suggest depth fields} (hdepth : depth ≤ cap)
      (h : ∀ key v s, (key, v) ∈ fields → declared.lookup key = some s →
        Conforms cap s (min (depth + 1) (2 ^ 64 - 1)) v) :
      Conforms cap ⟨default?, .object declared suggest⟩ depth (.object fields)
  /-- An object, every value of which conforms to the specific for its key, or else to `element`. -/
  | objects {default? advice specifics element depth fields} (hdepth : depth ≤ cap)
      (h : ∀ key v, (key, v) ∈ fields →
        Conforms cap ((specifics.lookup key).getD element) (min (depth + 1) (2 ^ 64 - 1)) v) :
      Conforms cap ⟨default?, .objects advice specifics element⟩ depth (.object fields)

namespace Schema

variable {base cap depth : Nat} {pos : Position} {v : Value} {default? : Option Value}

/-! ### The clauses, read backwards -/

theorem conforms_oneOf_iff {literals : List Value} :
    Conforms cap ⟨default?, .oneOf literals⟩ depth v ↔ (literals.any fun l => l.strictEq v) = true := by
  rw [List.any_eq_true]
  constructor
  · rintro ⟨⟩
    exact ⟨_, ‹_›, ‹_›⟩
  · rintro ⟨l, hl, h⟩
    exact .oneOf hl h

theorem conforms_compose_iff {first second : Schema} :
    Conforms cap ⟨default?, .compose first second⟩ depth v ↔
      first.Conforms cap depth v ∧ second.Conforms cap depth v := by
  constructor
  · rintro ⟨⟩
    exact ⟨‹_›, ‹_›⟩
  · rintro ⟨h, h'⟩
    exact .compose h h'

theorem conforms_either_iff {alternatives : List Schema} :
    Conforms cap ⟨default?, .either alternatives⟩ depth v ↔ ∃ s ∈ alternatives, s.Conforms cap depth v := by
  constructor
  · rintro ⟨⟩
    exact ⟨_, ‹_›, ‹_›⟩
  · rintro ⟨s, hs, h⟩
    exact .either hs h

/-- A walk that does not exceed its limits has not got deeper than their cap, and counts its levels alike. -/
theorem conforms_array_iff {element : Schema} :
    Conforms pos.limits.maxDepth ⟨default?, .array element⟩ pos.depth v ↔
      pos.exceeded = false ∧ ∃ items, v = .array items ∧
        ∀ x ∈ items, element.Conforms pos.limits.maxDepth pos.descend.depth x := by
  rw [Position.exceeded_eq_false_iff]
  constructor
  · rintro ⟨⟩
    exact ⟨‹_›, _, rfl, ‹_›⟩
  · rintro ⟨hpos, items, rfl, h⟩
    exact .array hpos h

/-- Both kinds of object rules demand of each entry what its governor demands. -/
theorem conforms_keyed_iff {rule : Rule} (hrule : rule.IsKeyed) :
    Conforms pos.limits.maxDepth ⟨default?, rule⟩ pos.depth v ↔
      pos.exceeded = false ∧ ∃ fields, v = .object fields ∧ ∀ e ∈ fields, ∀ s,
        rule.governor? e.1 = some s → s.Conforms pos.limits.maxDepth pos.descend.depth e.2 := by
  rw [Position.exceeded_eq_false_iff]
  cases rule with
  | object declared suggest =>
      constructor
      · rintro ⟨⟩
        rename_i fields hpos h
        exact ⟨hpos, fields, rfl, fun e he s hs => h e.1 e.2 s he hs⟩
      · rintro ⟨hpos, fields, rfl, h⟩
        exact .object hpos fun key w s he hs => h (key, w) he s hs
  | objects advice specifics element =>
      constructor
      · rintro ⟨⟩
        rename_i fields hpos h
        refine ⟨hpos, fields, rfl, fun e he s hs => ?_⟩
        rw [Rule.governor?, Option.or_some, Option.some.injEq] at hs
        exact hs ▸ h e.1 e.2 he
      · rintro ⟨hpos, fields, rfl, h⟩
        refine .objects hpos fun key w he => h (key, w) he _ ?_
        rw [Rule.governor?, Option.or_some]
  | _ => exact absurd hrule id

/-! ## Verdicts are conformance -/

/-- A choice between alternatives that leave the value alone accepts what one of them accepts. -/
theorem gives_either_untouched {alternatives : List Schema}
    (h : ∀ s ∈ alternatives, s.Gives base pos v fun r => (r.ok = true ↔ s.Conforms cap depth v) ∧ r.value = v) :
    Gives ⟨default?, .either alternatives⟩ base pos v
      fun r => (r.ok = true ↔ ∃ s ∈ alternatives, s.Conforms cap depth v) ∧ r.value = v := by
  induction alternatives generalizing default? with
  | nil => exact gives_either_nil ⟨by simp, rfl⟩
  | cons a rest ih =>
      apply gives_either_cons (h a List.mem_cons_self)
      · intro r hr hok
        exact ⟨⟨fun _ => ⟨a, List.mem_cons_self, hr.1.mp hok⟩, fun _ => hok⟩, hr.2⟩
      · intro r hr hfail
        have ha : ¬ a.Conforms cap depth v := fun hconforms => Bool.eq_false_iff.mp hfail (hr.1.mpr hconforms)
        -- The others see the value as it was.
        rw [hr.2]
        refine (ih fun s hs => h s (List.mem_cons_of_mem a hs)).mono fun r' hr' => ⟨?_, hr'.2⟩
        simpa [ha] using hr'.1

/-- The verdict is whether `v` conforms, and an injection-free schema has left `v` as it is. -/
def Decides (s : Schema) (pos : Position) (v : Value) (r : Verdict) : Prop :=
  (r.ok = true ↔ s.Conforms pos.limits.maxDepth pos.depth v) ∧ (s.InjectionFree → r.value = v)

theorem decides_array {element : Schema} (h : ∀ pos v, element.Gives base pos v (element.Decides pos v)) :
    Gives ⟨default?, .array element⟩ base pos v (Decides ⟨default?, .array element⟩ pos v) := by
  refine gives_array (fun hv => ⟨?_, fun _ => rfl⟩) (h pos.descend) ?_
  · rw [conforms_array_iff]
    refine ⟨fun hf => absurd hf Bool.false_ne_true, ?_⟩
    rintro ⟨hpos, items, rfl, -⟩
    exact absurd hv (by simp [hpos, Value.kind])
  · intro items hitems hpos rs hrs
    subst hitems
    refine ⟨?_, fun hi => ?_⟩
    · rw [conforms_array_iff, Verdict.ofElements_ok_iff (hrs.imp fun _ _ hr => hr.1)]
      constructor
      · exact fun hall => ⟨hpos, items, rfl, hall⟩
      · rintro ⟨-, items', heq, hall⟩
        exact Value.array.inj heq ▸ hall
    · have hfree : element.InjectionFree := hi.part List.mem_cons_self
      rw [Verdict.ofElements_value (hrs.imp fun _ _ hr => hr.2 hfree), List.map_id']

theorem decides_keyed {rule : Rule} (hrule : rule.IsKeyed)
    (h : ∀ t ∈ rule.parts, ∀ pos v, t.Gives base pos v (t.Decides pos v)) :
    Gives ⟨default?, rule⟩ base pos v (Decides ⟨default?, rule⟩ pos v) := by
  -- What is known of the verdict on an entry, whoever governs it.
  let R : String × Value → Verdict → Prop := fun e r =>
    (r.ok = true ↔ ∀ s, rule.governor? e.1 = some s → s.Conforms pos.limits.maxDepth pos.descend.depth e.2) ∧
      (InjectionFree ⟨default?, rule⟩ → r.value = e.2)
  refine gives_object (R := R) (A := fun _ _ => True) hrule (fun hv => ⟨?_, fun _ => rfl⟩) ?_ ?_ ?_ ?_
  · rw [conforms_keyed_iff hrule]
    refine ⟨fun hf => absurd hf Bool.false_ne_true, ?_⟩
    rintro ⟨hpos, fields, rfl, -⟩
    exact absurd hv (by simp [hpos, Value.kind])
  · intro e s hs
    have hpart : s ∈ rule.parts := Rule.mem_parts_of_governor hs
    refine (h s hpart pos.descend e.2).mono fun r hr => ⟨?_, fun hi => hr.2 (hi.part hpart)⟩
    rw [hr.1, hs]
    simp
  · intro e hs
    simp [R, hs]
  · intro field hf d _
    exact Gives.fill (h field.2 (Rule.mem_parts_of_declared hf) pos.descend) fun _ _ _ => trivial
  · intro fields hfields hpos rs added hrs hadded
    subst hfields
    refine ⟨?_, fun hi => ?_⟩
    · rw [conforms_keyed_iff hrule, Verdict.ofEntries_ok_iff (hrs.imp fun _ _ hr => hr.2.1)]
      constructor
      · exact fun hall => ⟨hpos, fields, rfl, hall⟩
      · rintro ⟨-, fields', heq, hall⟩
        exact Value.object.inj heq ▸ hall
    · have hnone : rule.lacking (Fields.keys fields) = [] :=
        Rule.lacking_eq_nil fun field hf hd => absurd hd (by simp [hi.here field hf])
      rw [hnone, List.forall₂_nil_left_iff] at hadded
      have hentries : List.Forall₂ (fun e r => (r.1, r.2.value) = e) fields rs :=
        hrs.imp fun _ _ hr => Prod.ext hr.1 (hr.2.2 hi)
      rw [hadded, Verdict.ofEntries_value hentries, List.append_nil, List.map_id']

/-- **The verdict of every rule is its clause of conformance**, where nothing is injected before a decision
    is made. -/
theorem gives_decides {s : Schema} (hc : s.CustomFree) (hp : s.PlainChoices) (base : Nat) (pos : Position)
    (v : Value) : s.Gives base pos v (s.Decides pos v) := by
  induction s using Schema.induction generalizing pos v with
  | step s ih =>
    obtain ⟨default?, rule⟩ := s
    have ihp : ∀ t ∈ rule.parts, ∀ pos v, t.Gives base pos v (t.Decides pos v) :=
      fun t ht pos v => ih t ht (hc.part ht) (hp.part ht) pos v
    cases rule with
    | any => exact gives_any ⟨⟨fun _ => .any, fun _ => rfl⟩, fun _ => rfl⟩
    | kind k =>
        refine gives_kind ⟨decide_eq_true_iff.trans ⟨.kind, ?_⟩, fun _ => rfl⟩
        rintro ⟨⟩
        assumption
    | int =>
        refine gives_int ⟨decide_eq_true_iff.trans ⟨.int, ?_⟩, fun _ => rfl⟩
        rintro ⟨⟩
        assumption
    | oneOf literals => exact gives_oneOf ⟨conforms_oneOf_iff.symm, fun _ => rfl⟩
    | compose first second =>
        have hfirst : first.InjectionFree := hp.here
        have hsecond : second ∈ [first, second] := List.mem_cons_of_mem _ List.mem_cons_self
        apply gives_compose (ihp first List.mem_cons_self pos v)
        · intro r hr hok
          -- The second part sees the value as the first found it.
          rw [hr.2 hfirst]
          refine (ihp second hsecond pos v).mono fun r' hr' => ⟨?_, fun hi => hr'.2 (hi.part hsecond)⟩
          rw [hr'.1, conforms_compose_iff]
          exact ⟨fun h' => ⟨hr.1.mp hok, h'⟩, fun h' => h'.2⟩
        · intro r hr hfail
          refine ⟨?_, fun _ => hr.2 hfirst⟩
          rw [conforms_compose_iff, ← hr.1, hfail]
          simp
    | either alternatives =>
        have hplain : ∀ s ∈ alternatives, s.InjectionFree := hp.here
        have hparts : ∀ s ∈ alternatives, s.Gives base pos v fun r =>
            (r.ok = true ↔ s.Conforms pos.limits.maxDepth pos.depth v) ∧ r.value = v :=
          fun s hs => (ihp s hs pos v).mono fun r hr => ⟨hr.1, hr.2 (hplain s hs)⟩
        refine (gives_either_untouched hparts).mono fun r hr => ⟨?_, fun _ => hr.2⟩
        rw [hr.1, conforms_either_iff]
    | deprecated inner notice =>
        refine gives_deprecated ((ihp inner List.mem_cons_self pos v).mono fun r hr => ⟨?_, fun hi => ?_⟩)
        · rw [hr.1]
          refine ⟨.deprecated, ?_⟩
          rintro ⟨⟩
          assumption
        · exact hr.2 (hi.part List.mem_cons_self)
    | array element => exact decides_array (ihp element List.mem_cons_self)
    | object fields suggest => exact decides_keyed trivial ihp
    | objects advice specifics element => exact decides_keyed trivial ihp
    | custom name check => exact absurd hc.here id

/-- An injection-free schema leaves every value as it is, and accepts those that conform. -/
theorem InjectionFree.gives {s : Schema} (hi : s.InjectionFree) (hc : s.CustomFree) (base : Nat)
    (pos : Position) (v : Value) :
    s.Gives base pos v fun r => (r.ok = true ↔ s.Conforms pos.limits.maxDepth pos.depth v) ∧ r.value = v :=
  (gives_decides hc hi.plainChoices base pos v).mono fun _ hr => ⟨hr.1, hr.2 hi⟩

/-- **A validation accepts exactly the conforming documents.** Without custom checks, and with choices that
    inject nothing, the outcome is ok if and only if the value, as it was before, conforms at depth 0, under the cap
    that the limits set. -/
theorem isOk_validate_iff {s : Schema} (hc : s.CustomFree) (hp : s.PlainChoices) (limits : Limits)
    (v : Value) (next : Nat) :
    ((s.validate limits v).start next).result.outcome.isOk = true ↔ s.Conforms limits.maxDepth 0 v :=
  (gives_decides hc hp 0 (.root limits) v next (Nat.zero_le next)).1.1

/-- A missing key with a default keeps no document from conforming, nor does a nested choice. Under the cap 1 the array
    at depth 1 may be entered, but not the one at depth 2. Under the cap 2 that one may be, too. -/
theorem conforms_watcher :
    let s := object [("host", string), ("tls", bool.withDefault (.bool true)),
      ("watch", array (either [string, array string]))]
    let document (item : Value) := Value.object [("host", .string "h"), ("watch", .array [.string "a", item])]
    let flat := document (.string "b")
    let nested := document (.array [.string "b"])
    let one : Limits := ⟨1, by decide⟩
    let two : Limits := ⟨2, by decide⟩
    let ok (limits : Limits) (v : Value) := ((s.validate limits v).start 0).result.outcome.isOk
    s.CustomFree ∧ s.PlainChoices ∧ (ok one flat = true ∧ s.Conforms 1 0 flat) ∧
      (ok one nested = false ∧ ¬ s.Conforms 1 0 nested) ∧ (ok two nested = true ∧ s.Conforms 2 0 nested) := by
  intro s document flat nested one two ok
  have hc : s.CustomFree := by decide
  have hp : s.PlainChoices := by decide
  have hflat : ok one flat = true := by decide
  have hdeep : ok one nested = false := by decide
  have hnested : ok two nested = true := by decide
  refine ⟨hc, hp, ⟨hflat, (isOk_validate_iff hc hp one flat 0).mp hflat⟩, ⟨hdeep, fun h => ?_⟩,
    ⟨hnested, (isOk_validate_iff hc hp two nested 0).mp hnested⟩⟩
  exact Bool.eq_false_iff.mp hdeep ((isOk_validate_iff hc hp one nested 0).mpr h)

end Schema

end ConfigSchema
