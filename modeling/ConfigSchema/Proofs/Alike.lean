import ConfigSchema.Proofs.Restrictions
import ConfigSchema.Proofs.Verdict

/-!
# `Schema.AlikeAt` — schemas that decide alike

`AlikeAt p q s t` says that `s`, standing at `p`, and `t`, standing at `q`, reach one verdict on every value
and draw the same identities. Their messages and their logs may differ.

Deciding alike is a congruence: one lemma for each way of building a schema says that parts that decide alike
make wholes that decide alike. Of the position only one thing enters, namely at how many of the levels still
to come containers are too deep. So a schema decides alike at two positions that agree on this for as many
levels as the schema has (`alikeAt_self`).
-/

namespace ConfigSchema

open Checker

namespace Schema

/-- **`s` at `p` decides like `t` at `q`**: from one supply, both checks of a value reach one verdict and leave
    one supply. -/
def AlikeAt (p q : Position) (s t : Schema) : Prop := ∀ v, SameVerdict (s.check p v) (t.check q v)

variable {p q : Position} {default? default?' : Option Value}

theorem AlikeAt.refl (p : Position) (s : Schema) : AlikeAt p p s s := fun _ => SameVerdict.refl _

theorem alikeAt_iff_rule {s t : Schema} :
    AlikeAt p q s t ↔ ∀ v, SameVerdict (s.rule.check p v) (t.rule.check q v) := by
  unfold AlikeAt
  rw [check_eq s, check_eq t]

/-! ## Combinations -/

theorem alikeAt_compose {first second first' second' : Schema} (h : AlikeAt p q first first')
    (h' : AlikeAt p q second second') :
    AlikeAt p q ⟨default?, .compose first second⟩ ⟨default?', .compose first' second'⟩ := by
  rw [alikeAt_iff_rule]
  intro v
  refine Run.Agree.bind (h v) fun a b hab => ?_
  -- The first parts have left one value, and are both content or both not.
  obtain ⟨hok, hvalue⟩ := Checked.verdict_eq_iff.mp hab
  rw [hok, hvalue]
  split
  · exact h' b.value
  · exact Run.Agree.pure hab

theorem alikeAt_either {alternatives alternatives' : List Schema}
    (h : List.Forall₂ (AlikeAt p q) alternatives alternatives') :
    AlikeAt p q ⟨default?, .either alternatives⟩ ⟨default?', .either alternatives'⟩ := by
  rw [alikeAt_iff_rule]
  intro v
  show SameVerdict (firstOf _ (checks alternatives) p v) (firstOf _ (checks alternatives') q v)
  rw [checks_eq_map, checks_eq_map]
  refine firstOf_sameVerdict _ _ ?_ v
  rw [List.forall₂_map_left_iff, List.forall₂_map_right_iff]
  exact h

theorem alikeAt_deprecated {inner inner' : Schema} {notice notice' : String} (h : AlikeAt p q inner inner') :
    AlikeAt p q ⟨default?, .deprecated inner notice⟩ ⟨default?', .deprecated inner' notice'⟩ := by
  rw [alikeAt_iff_rule]
  intro v
  have hleft := advising_sameVerdict notice inner.check p v
  have hright := advising_sameVerdict notice' inner'.check q v
  exact hleft.symm.trans ((h v).trans hright)

/-! ## Containers -/

theorem tooDeep_sameVerdict (p q : Position) (v : Value) : SameVerdict (tooDeep p v) (tooDeep q v) :=
  fun _ => ⟨rfl, rfl⟩

theorem alikeAt_array {element element' : Schema} (hpos : p.exceeded = q.exceeded)
    (h : p.exceeded = false → AlikeAt p.descend q.descend element element') :
    AlikeAt p q ⟨default?, .array element⟩ ⟨default?', .array element'⟩ := by
  rw [alikeAt_iff_rule]
  intro v
  show SameVerdict (elements element.check p v) (elements element'.check q v)
  cases v with
  | array items =>
      by_cases hdeep : p.exceeded = true
      · rw [elements, elements, if_pos hdeep, if_pos (hpos ▸ hdeep)]
        exact tooDeep_sameVerdict p q _
      · rw [elements, elements, if_neg hdeep, if_neg (hpos ▸ hdeep)]
        have hitem := h (Bool.eq_false_iff.mpr hdeep)
        have hitems : List.Forall₂ Eq items items := List.forall₂_same.mpr fun _ _ => rfl
        have hresults : Run.Agree (List.Forall₂ fun a b => a.verdict = b.verdict)
            (items.mapM (element.check p.descend)) (items.mapM (element'.check q.descend)) :=
          Run.Agree.mapM hitems fun a b hab => hab ▸ hitem a
        refine Run.Agree.bind hresults fun rs rs' hrs => Run.Agree.pure ?_
        have hverdicts : rs.map Checked.verdict = rs'.map Checked.verdict :=
          (forall₂_map_eq (hrs.imp fun _ _ h => h.symm)).symm
        rw [verdict_elements, verdict_elements, hverdicts]
  | _ => exact Run.Agree.pure rfl

/-- Two schemas declared under one key, with one default and alike checks. -/
def AlikeFields (p q : Position) (field field' : String × Schema) : Prop :=
  field.1 = field'.1 ∧ field.2.default? = field'.2.default? ∧ AlikeAt p q field.2 field'.2

/-- Under one key, fields that are alike one by one declare schemas that decide alike, or neither does. -/
theorem alikeAt_lookup {fields fields' : Fields Schema} (h : List.Forall₂ (AlikeFields p q) fields fields')
    (key : String) : Option.Rel (AlikeAt p q) (fields.lookup key) (fields'.lookup key) := by
  induction h with
  | nil => exact .none
  | @cons field field' rest rest' hfield _ ih =>
      obtain ⟨k, s⟩ := field
      obtain ⟨k', s'⟩ := field'
      obtain ⟨rfl, -, hs⟩ : k = k' ∧ _ ∧ AlikeAt p q s s' := hfield
      rw [List.lookup_cons, List.lookup_cons]
      cases key == k with
      | true => exact .some hs
      | false => exact ih

theorem governing_sameVerdict {rule rule' : Rule} {key : String}
    (h : Option.Rel (AlikeAt p q) (rule.governor? key) (rule'.governor? key)) (v : Value) :
    SameVerdict (rule.governing key p v) (rule'.governing key q v) := by
  unfold Rule.governing
  generalize rule.governor? key = governor at h
  generalize rule'.governor? key = governor' at h
  cases h with
  | none => exact Run.Agree.pure rfl
  | some hs => exact hs v

/-- Alike schemas decide alike on the copy of a default. -/
theorem fill_sameVerdict {s s' : Schema} (h : AlikeAt p q s s') (d : Value) :
    SameVerdict (s.fill p d) (s'.fill q d) := by
  refine Run.Agree.bind (Run.Agree.refl (fun _ => rfl) d.deepCopy) fun copy copy' hcopy => ?_
  subst hcopy
  exact h copy

theorem inject_agree {s s' : Schema} (h : AlikeAt p q s s') (key : String) (d : Value) :
    Run.Agree Eq (Slot.inject p ⟨key, s.name, some d, s.check⟩ d)
      (Slot.inject q ⟨key, s'.name, some d, s'.check⟩ d) := by
  rw [inject_eq_fill, inject_eq_fill]
  refine Run.Agree.bind (Run.Agree.log _ _) fun _ _ _ => Run.Agree.map ?_
  exact (fill_sameVerdict h d).mono fun a b hab => Prod.ext rfl (Checked.verdict_eq_iff.mp hab).2

theorem injections_agree {fields fields' : Fields Schema} (h : List.Forall₂ (AlikeFields p q) fields fields')
    (present : Fields Value) :
    Run.Agree Eq ((Slot.missing (slots fields) present).mapM fun m => m.1.inject p m.2)
      ((Slot.missing (slots fields') present).mapM fun m => m.1.inject q m.2) := by
  induction h with
  | nil => exact Run.Agree.pure rfl
  | @cons field field' rest rest' hfield _ ih =>
      obtain ⟨key, s⟩ := field
      obtain ⟨key', s'⟩ := field'
      obtain ⟨rfl, hdefault, hs⟩ : key = key' ∧ s.default? = s'.default? ∧ AlikeAt p q s s' := hfield
      rw [missing_slots_cons, missing_slots_cons, ← hdefault]
      split
      · exact ih
      · cases s.default? with
        | none => exact ih
        | some d =>
            rw [List.mapM_cons, List.mapM_cons]
            refine Run.Agree.bind (inject_agree hs key d) fun a b hab => ?_
            exact Run.Agree.bind ih fun as bs habs => Run.Agree.pure (by rw [hab, habs])

/-- Object rules with the same fields, up to alike schemas, and with alike governors. -/
theorem alikeAt_keyed {rule rule' : Rule} (hrule : rule.IsKeyed) (hrule' : rule'.IsKeyed)
    (hpos : p.exceeded = q.exceeded)
    (hgov : p.exceeded = false → ∀ key, Option.Rel (AlikeAt p.descend q.descend) (rule.governor? key)
      (rule'.governor? key))
    (hdeclared : p.exceeded = false →
      List.Forall₂ (AlikeFields p.descend q.descend) rule.declared rule'.declared) :
    AlikeAt p q ⟨default?, rule⟩ ⟨default?', rule'⟩ := by
  rw [alikeAt_iff_rule]
  intro v
  show SameVerdict (rule.check p v) (rule'.check q v)
  rw [Rule.check_of_isKeyed hrule, Rule.check_of_isKeyed hrule']
  cases v with
  | object fields =>
      by_cases hdeep : p.exceeded = true
      · rw [entries, entries, if_pos hdeep, if_pos (hpos ▸ hdeep)]
        exact tooDeep_sameVerdict p q _
      · rw [entries, entries, if_neg hdeep, if_neg (hpos ▸ hdeep)]
        have hgov := hgov (Bool.eq_false_iff.mpr hdeep)
        have hdeclared := hdeclared (Bool.eq_false_iff.mpr hdeep)
        -- Hints and warnings aside, either rule checks an entry by its governor.
        have hcheck : ∀ e : String × Value, SameVerdict (rule.keyCheck e.1 p.descend e.2)
            (rule'.keyCheck e.1 q.descend e.2) := by
          intro e
          have hleft := Rule.keyCheck_sameVerdict hrule e.1 p.descend e.2
          have hright := Rule.keyCheck_sameVerdict hrule' e.1 q.descend e.2
          exact hleft.symm.trans ((governing_sameVerdict (hgov e.1) e.2).trans hright)
        have hfields : List.Forall₂ Eq fields fields := List.forall₂_same.mpr fun _ _ => rfl
        have hresults : Run.Agree (List.Forall₂ fun a b => a.1 = b.1 ∧ a.2.verdict = b.2.verdict)
            (fields.mapM fun e => Prod.mk e.1 <$> rule.keyCheck e.1 p.descend e.2)
            (fields.mapM fun e => Prod.mk e.1 <$> rule'.keyCheck e.1 q.descend e.2) := by
          refine Run.Agree.mapM hfields fun e e' he => ?_
          subst he
          refine Run.Agree.map (Run.Agree.mono (hcheck e) fun a b hab => ?_)
          exact ⟨rfl, hab⟩
        refine Run.Agree.bind hresults fun rs rs' hrs => ?_
        refine Run.Agree.bind (injections_agree hdeclared fields) fun added added' hadded => ?_
        refine Run.Agree.pure ?_
        have hverdicts : rs.map (fun r => (r.1, r.2.verdict)) = rs'.map fun r => (r.1, r.2.verdict) :=
          (forall₂_map_eq (hrs.imp fun _ _ h => Prod.ext h.1.symm h.2.symm)).symm
        rw [verdict_entries, verdict_entries, hverdicts, hadded]
  | _ => exact Run.Agree.pure rfl

theorem alikeAt_object {fields fields' : Fields Schema} {suggest suggest' : Bool}
    (hpos : p.exceeded = q.exceeded)
    (h : p.exceeded = false → List.Forall₂ (AlikeFields p.descend q.descend) fields fields') :
    AlikeAt p q ⟨default?, .object fields suggest⟩ ⟨default?', .object fields' suggest'⟩ :=
  alikeAt_keyed trivial trivial hpos (fun hdown => alikeAt_lookup (h hdown)) h

theorem alikeAt_objects {advice advice' : KeyAdvice} {specifics specifics' : Fields Schema}
    {element element' : Schema} (hpos : p.exceeded = q.exceeded)
    (h : p.exceeded = false → List.Forall₂ (AlikeFields p.descend q.descend) specifics specifics')
    (helement : p.exceeded = false → AlikeAt p.descend q.descend element element') :
    AlikeAt p q ⟨default?, .objects advice specifics element⟩
      ⟨default?', .objects advice' specifics' element'⟩ := by
  refine alikeAt_keyed trivial trivial hpos (fun hdown key => ?_) h
  show Option.Rel _ ((specifics.lookup key).or (some element)) ((specifics'.lookup key).or (some element'))
  have hlookup := alikeAt_lookup (h hdown) key
  generalize specifics.lookup key = found at hlookup
  generalize specifics'.lookup key = found' at hlookup
  cases hlookup with
  | none => exact .some (helement hdown)
  | some hs => exact .some hs

/-! ## Positions -/

/-- **A schema decides alike at two positions** at which containers are too deep on the same levels, as far
    down as the schema reaches. -/
theorem alikeAt_self {s : Schema} (hc : s.CustomFree)
    (h : ∀ k < s.height, (p.down k).exceeded = (q.down k).exceeded) : AlikeAt p q s s := by
  induction s using Schema.induction generalizing p q with
  | step s ih =>
    obtain ⟨default?, rule⟩ := s
    -- Parts on the level of the rule, and parts one level further down.
    have hhere : ∀ t ∈ rule.parts, AlikeAt p q t t := fun t ht =>
      ih t ht (hc.part ht) fun k hk => h k (Nat.lt_of_lt_of_le hk (height_le_of_mem_parts ht))
    have hbelow : ∀ k, rule.container? = some k → ∀ t ∈ rule.parts, AlikeAt p.descend q.descend t t :=
      fun _ hk t ht => ih t ht (hc.part ht) fun k hk' =>
        h (k + 1) (Nat.lt_of_le_of_lt hk' (height_lt_of_mem_parts hk ht))
    have hfields : ∀ k, rule.container? = some k →
        List.Forall₂ (AlikeFields p.descend q.descend) rule.declared rule.declared :=
      fun k hk => List.forall₂_same.mpr fun field hf =>
        ⟨rfl, rfl, hbelow k hk field.2 (Rule.mem_parts_of_declared hf)⟩
    cases rule with
    | any => exact alikeAt_iff_rule.mpr fun v => SameVerdict.refl _
    | kind k => exact alikeAt_iff_rule.mpr fun v => SameVerdict.refl _
    | int => exact alikeAt_iff_rule.mpr fun v => SameVerdict.refl _
    | oneOf literals => exact alikeAt_iff_rule.mpr fun v => SameVerdict.refl _
    | compose first second =>
        have hsecond : second ∈ [first, second] := List.mem_cons_of_mem _ List.mem_cons_self
        exact alikeAt_compose (hhere first List.mem_cons_self) (hhere second hsecond)
    | array element =>
        exact alikeAt_array (h 0 (Nat.succ_pos _)) fun _ => hbelow _ rfl element List.mem_cons_self
    | object fields suggest =>
        exact alikeAt_object (h 0 (Nat.succ_pos _)) fun _ => hfields _ rfl
    | objects advice specifics element =>
        exact alikeAt_objects (h 0 (Nat.succ_pos _)) (fun _ => hfields _ rfl)
          fun _ => hbelow _ rfl element List.mem_cons_self
    | either alternatives => exact alikeAt_either (List.forall₂_same.mpr hhere)
    | deprecated inner notice => exact alikeAt_deprecated (hhere inner List.mem_cons_self)
    | custom name check => exact absurd hc.here id

end Schema

end ConfigSchema
