import ConfigSchema.Proofs.Verdict

/-!
# `Schema.Gives` — what a schema can decide, rule by rule

`Schema.Gives s base pos v post` says that every verdict of `s` on `v` satisfies `post`, whatever identities
from `base` on are drawn. This module derives it rule by rule, from the same claim about the parts:

* `gives_any`, `gives_kind`, `gives_int`, `gives_oneOf` — a test of the value, which stays as it is;
* `gives_compose`, `gives_deprecated`, `gives_either_nil`, `gives_either_cons`;
* `gives_refused` — a container rule refuses what is of another kind or too deep;
* `gives_array`, `gives_object` — within the limit, the items are judged one by one. Both are cases of a
  rule for items that are the image of a list (`gives_array_map`, `gives_object_map`).

Nothing that is proved with these rules opens a checker again.
-/

namespace ConfigSchema

open Checker

/-! ## Copies -/

namespace Value

mutual

/-- A copy draws from the supply, and leaves one from which fresh identities can still be drawn. -/
theorem ensures_deepCopy {base : Nat} : ∀ v : Value, v.deepCopy.Ensures base fun _ => True
  | array items => .map (.mono (ensures_deepCopyItems items) fun _ => id)
  | object fields => .map (.mono (ensures_deepCopyFields fields) fun _ => id)
  | function _ => .map (.mono .fresh fun _ _ => trivial)
  | undefined | null | bool _ | number _ | string _ | regexp _ => .pure trivial

theorem ensures_deepCopyItems {base : Nat} :
    ∀ items : List Value, (deepCopyItems items).Ensures base fun _ => True
  | [] => .pure trivial
  | v :: rest =>
      .bind (ensures_deepCopy v) fun _ _ => .bind (ensures_deepCopyItems rest) fun _ _ => .pure trivial

theorem ensures_deepCopyFields {base : Nat} :
    ∀ fields : List (String × Value), (deepCopyFields fields).Ensures base fun _ => True
  | [] => .pure trivial
  | (_, v) :: rest =>
      .bind (ensures_deepCopy v) fun _ _ => .bind (ensures_deepCopyFields rest) fun _ _ => .pure trivial

end

end Value

/-! ## Verdicts of a schema -/

namespace Schema

/-- **Every verdict of the schema on the value satisfies `post`**, whatever identities from `base` on are
    drawn. -/
def Gives (s : Schema) (base : Nat) (pos : Position) (v : Value) (post : Verdict → Prop) : Prop :=
  (s.check pos v).Ensures base fun c => post c.verdict

variable {base : Nat} {pos : Position} {v : Value} {post post' : Verdict → Prop} {default? : Option Value}

theorem Gives.mono {s : Schema} (h : s.Gives base pos v post) (hpost : ∀ r, post r → post' r) :
    s.Gives base pos v post' :=
  Run.Ensures.mono h fun _ => hpost _

/-- What a schema gives of every value it gives of the copy of a default. -/
theorem Gives.fill {s : Schema} {d : Value} {P : Value → Verdict → Prop}
    (h : ∀ v, s.Gives base pos v (P v)) (hpost : ∀ v r, P v r → post r) :
    (s.fill pos d).Ensures base fun c => post c.verdict :=
  Run.Ensures.bind (Value.ensures_deepCopy d) fun copy _ => (h copy).mono (hpost copy)

theorem Gives.and {s : Schema} (h : s.Gives base pos v post) (h' : s.Gives base pos v post') :
    s.Gives base pos v fun r => post r ∧ post' r :=
  Run.Ensures.and h h'

/-- The default of a schema plays no part in its verdicts. -/
theorem gives_iff_rule {s : Schema} :
    s.Gives base pos v post ↔ (s.rule.check pos v).Ensures base fun c => post c.verdict := by
  unfold Gives
  rw [check_eq]

/-! ### Tests and combinations -/

theorem gives_any (h : post ⟨true, v⟩) : Gives ⟨default?, .any⟩ base pos v post :=
  gives_iff_rule.mpr (Run.Ensures.pure h)

/-- A test of the value decides, and leaves the value as it is. -/
theorem ensures_test {test : Prop} [Decidable test] {expected : String} (h : post ⟨decide test, v⟩) :
    Run.Ensures base (fun c => post c.verdict) (if test then accept pos v else reject expected pos v) := by
  by_cases ht : test
  · rw [if_pos ht]
    rw [decide_eq_true ht] at h
    exact Run.Ensures.pure h
  · rw [if_neg ht]
    rw [decide_eq_false ht] at h
    exact Run.Ensures.pure h

theorem gives_kind {k : Kind} (h : post ⟨decide (v.kind = k), v⟩) :
    Gives ⟨default?, .kind k⟩ base pos v post :=
  gives_iff_rule.mpr (ensures_test h)

theorem gives_int (h : post ⟨decide (v.kind = .number), v⟩) :
    Gives ⟨default?, .int⟩ base pos v post :=
  gives_iff_rule.mpr (ensures_test h)

theorem gives_oneOf {literals : List Value} (h : post ⟨literals.any fun l => l.strictEq v, v⟩) :
    Gives ⟨default?, .oneOf literals⟩ base pos v post := by
  refine gives_iff_rule.mpr (ensures_test ?_)
  rwa [Bool.decide_eq_true]

/-- A composition that goes on leaves the verdict to its second part. -/
theorem gives_compose {first second : Schema} {mid : Verdict → Prop} (hfirst : first.Gives base pos v mid)
    (hok : ∀ r, mid r → r.ok = true → second.Gives base pos r.value post)
    (hfail : ∀ r, mid r → r.ok = false → post r) :
    Gives ⟨default?, .compose first second⟩ base pos v post := by
  rw [gives_iff_rule]
  refine Run.Ensures.bind hfirst fun c hc => ?_
  by_cases h : c.outcome.isOk = true
  · rw [if_pos h]
    exact hok c.verdict hc h
  · rw [if_neg h]
    exact Run.Ensures.pure (hfail c.verdict hc (Bool.eq_false_iff.mpr h))

theorem gives_deprecated {inner : Schema} {notice : String} (h : inner.Gives base pos v post) :
    Gives ⟨default?, .deprecated inner notice⟩ base pos v post :=
  gives_iff_rule.mpr ((advising_sameVerdict notice inner.check pos v).ensures h)

theorem gives_either_nil (h : post ⟨false, v⟩) : Gives ⟨default?, .either []⟩ base pos v post :=
  gives_iff_rule.mpr (Run.Ensures.pure h)

/-- A choice whose first alternative fails leaves the verdict to the choice between the others. -/
theorem gives_either_cons {a : Schema} {rest : List Schema} {mid : Verdict → Prop}
    (hfirst : a.Gives base pos v mid) (hok : ∀ r, mid r → r.ok = true → post r)
    (hfail : ∀ r, mid r → r.ok = false → Gives ⟨none, .either rest⟩ base pos r.value post) :
    Gives ⟨default?, .either (a :: rest)⟩ base pos v post := by
  rw [gives_iff_rule]
  refine Run.Ensures.bind hfirst fun c hc => ?_
  by_cases h : c.outcome.isOk = true
  · rw [if_pos h]
    exact Run.Ensures.pure (hok c.verdict hc h)
  · rw [if_neg h]
    have hrest := gives_iff_rule.mp (hfail c.verdict hc (Bool.eq_false_iff.mpr h))
    have hsame : List.Forall₂ (fun check check' => ∀ v, SameVerdict (check pos v) (check' pos v))
        (checks rest) (checks rest) :=
      List.forall₂_same.mpr fun _ _ _ => SameVerdict.refl _
    exact (firstOf_sameVerdict _ _ hsame c.value).ensures hrest

/-! ### Containers -/

theorem ensures_tooDeep (h : post ⟨false, v⟩) : (tooDeep pos v).Ensures base fun c => post c.verdict :=
  Run.Ensures.bind (Run.Ensures.log _) fun _ _ => Run.Ensures.pure h

/-- A container rule refuses a value of another kind, and a container that lies too deep. -/
theorem gives_refused {s : Schema} {k : Kind} (hs : s.rule.container? = some k)
    (hv : v.kind ≠ k ∨ pos.exceeded = true) (h : post ⟨false, v⟩) : s.Gives base pos v post := by
  have harray : ∀ element, (v.kind ≠ .array ∨ pos.exceeded = true) →
      (elements element pos v).Ensures base fun c => post c.verdict := by
    intro element hv
    cases v with
    | array items =>
        have hpos := hv.resolve_left (not_not.mpr rfl)
        rw [elements, if_pos hpos]
        exact ensures_tooDeep h
    | _ => exact Run.Ensures.pure h
  have hobject : ∀ checkOf slots, (v.kind ≠ .object ∨ pos.exceeded = true) →
      (entries checkOf slots pos v).Ensures base fun c => post c.verdict := by
    intro checkOf slots hv
    cases v with
    | object fields =>
        have hpos := hv.resolve_left (not_not.mpr rfl)
        rw [entries, if_pos hpos]
        exact ensures_tooDeep h
    | _ => exact Run.Ensures.pure h
  rw [gives_iff_rule]
  obtain ⟨default?, rule⟩ := s
  cases rule with
  | array element =>
      cases hs
      exact harray element.check hv
  | object fields suggest =>
      cases hs
      exact hobject _ _ hv
  | objects advice specifics element =>
      cases hs
      exact hobject _ _ hv
  | _ => exact absurd hs (by simp [Rule.container?])

/-- Within the limit, the elements of an array are judged one by one, one level further down. The array is
    given as the image of a list, so that what is known of that list is there for each element. -/
theorem gives_array_map {ι : Type} {items : List ι} {val : ι → Value} {R : ι → Verdict → Prop}
    {element : Schema} (hpos : pos.exceeded = false)
    (hitem : ∀ i ∈ items, element.Gives base pos.descend (val i) (R i))
    (h : ∀ rs : List Verdict, List.Forall₂ R items rs → post (.ofElements rs)) :
    Gives ⟨default?, .array element⟩ base pos (.array (items.map val)) post := by
  rw [gives_iff_rule]
  show (elements element.check pos (.array (items.map val))).Ensures base _
  have hdown : ¬ pos.exceeded = true := Bool.eq_false_iff.mp hpos
  rw [elements, if_neg hdown, List.mapM_map]
  refine Run.Ensures.bind (Run.Ensures.mapM hitem) fun results hresults => Run.Ensures.pure ?_
  have hpost := h (results.map Checked.verdict) (List.forall₂_map_right_iff.mpr hresults)
  rwa [← verdict_elements] at hpost

/-- **Arrays.** An array within the limit passes or fails by its elements; anything else is refused. -/
theorem gives_array {R : Value → Verdict → Prop} {element : Schema}
    (hrefused : v.kind ≠ .array ∨ pos.exceeded = true → post ⟨false, v⟩)
    (hitem : ∀ x, element.Gives base pos.descend x (R x))
    (h : ∀ items, v = .array items → pos.exceeded = false → ∀ rs : List Verdict,
      List.Forall₂ R items rs → post (.ofElements rs)) :
    Gives ⟨default?, .array element⟩ base pos v post := by
  by_cases hv : v.kind ≠ .array ∨ pos.exceeded = true
  · exact gives_refused rfl hv (hrefused hv)
  · obtain ⟨hkind, hpos⟩ := not_or.mp hv
    obtain ⟨items, rfl⟩ := Value.eq_array_of_kind (not_not.mp hkind)
    rw [← List.map_id items]
    refine gives_array_map (Bool.eq_false_iff.mpr hpos) (fun x _ => hitem x) fun rs hrs => ?_
    exact h items rfl (Bool.eq_false_iff.mpr hpos) rs hrs

/-- The injected entries, in the order in which their keys are declared. -/
theorem ensures_injections {fields : Fields Schema} {present : Fields Value}
    {A : String × Schema → Value → Prop}
    (h : ∀ field ∈ fields, field.1 ∉ present.keys → ∀ d, field.2.default? = some d →
      (field.2.fill pos d).Ensures base fun c => A field c.value) :
    Run.Ensures base
      (List.Forall₂ (fun field added => added.1 = field.1 ∧ A field added.2)
        (fields.filter fun field => field.1 ∉ present.keys ∧ field.2.default?.isSome))
      ((Slot.missing (slots fields) present).mapM fun m => m.1.inject pos m.2) := by
  induction fields with
  | nil => exact Run.Ensures.pure .nil
  | cons field rest ih =>
      have hrest := ih fun f hf => h f (List.mem_cons_of_mem _ hf)
      have hfield := h field List.mem_cons_self
      obtain ⟨key, s⟩ := field
      rw [missing_slots_cons, List.filter_cons]
      by_cases hk : key ∈ present.keys
      · rw [if_pos hk, if_neg (by simp [hk])]
        exact hrest
      · rw [if_neg hk]
        cases hd : s.default? with
        | none =>
            rw [if_neg (by simp)]
            exact hrest
        | some d =>
            rw [if_pos (by simp [hk]), List.mapM_cons]
            have hinject : (Slot.inject pos ⟨key, s.name, some d, s.check⟩ d).Ensures base
                fun a => a.1 = key ∧ A (key, s) a.2 := by
              rw [inject_eq_fill]
              refine Run.Ensures.bind (Run.Ensures.log _) fun _ _ => ?_
              exact Run.Ensures.map ((hfield hk d hd).mono fun c hc => ⟨rfl, hc⟩)
            refine Run.Ensures.bind hinject fun a ha => ?_
            exact Run.Ensures.bind hrest fun as has => Run.Ensures.pure (.cons ha has)

/-- Within the limit, the entries of an object are judged one by one by their governors, one level further
    down; an entry without one passes. Behind them come the declared keys that are lacking, each with what its
    schema leaves of a copy of the default. As in `gives_array_map`, the entries are the image of a list. -/
theorem gives_object_map {rule : Rule} {ι : Type} {items : List ι} {entry : ι → String × Value}
    {R : ι → Verdict → Prop} {A : String × Schema → Value → Prop} (hrule : rule.IsKeyed)
    (hpos : pos.exceeded = false)
    (hgov : ∀ i ∈ items, ∀ s, rule.governor? (entry i).1 = some s →
      s.Gives base pos.descend (entry i).2 (R i))
    (hfree : ∀ i ∈ items, rule.governor? (entry i).1 = none → R i ⟨true, (entry i).2⟩)
    (hlack : ∀ field ∈ rule.declared, field.1 ∉ Fields.keys (items.map entry) →
      ∀ d, field.2.default? = some d → (field.2.fill pos.descend d).Ensures base fun c => A field c.value)
    (h : ∀ (rs : List (String × Verdict)) (added : Fields Value),
      List.Forall₂ (fun i r => r.1 = (entry i).1 ∧ R i r.2) items rs →
      List.Forall₂ (fun field a => a.1 = field.1 ∧ A field a.2)
        (rule.lacking (Fields.keys (items.map entry))) added →
      post (.ofEntries rs added)) :
    Gives ⟨default?, rule⟩ base pos (.object (items.map entry)) post := by
  rw [gives_iff_rule, Rule.check_of_isKeyed hrule]
  have hdown : ¬ pos.exceeded = true := Bool.eq_false_iff.mp hpos
  rw [entries, if_neg hdown, List.mapM_map]
  have hitem : ∀ i ∈ items, Run.Ensures base (fun r => r.1 = (entry i).1 ∧ R i r.2.verdict)
      (Prod.mk (entry i).1 <$> rule.keyCheck (entry i).1 pos.descend (entry i).2) := by
    intro i hi
    have hgoverning : (rule.governing (entry i).1 pos.descend (entry i).2).Ensures base
        fun c => R i c.verdict := by
      unfold Rule.governing
      cases hg : rule.governor? (entry i).1 with
      | none => exact Run.Ensures.pure (hfree i hi hg)
      | some s => exact hgov i hi s hg
    -- What the governor ensures, the check of the entry ensures as well.
    have hcheck := (Rule.keyCheck_sameVerdict hrule (entry i).1 pos.descend (entry i).2).ensures hgoverning
    exact Run.Ensures.map (hcheck.mono fun c hc => ⟨rfl, hc⟩)
  -- First the entries, one after another, and then the injections.
  refine Run.Ensures.bind (Run.Ensures.mapM hitem) fun results hresults => ?_
  refine Run.Ensures.bind (ensures_injections hlack) fun added hadded => Run.Ensures.pure ?_
  have hpost := h (results.map fun r => (r.1, r.2.verdict)) added
    (List.forall₂_map_right_iff.mpr hresults) hadded
  rwa [← verdict_entries] at hpost

/-- **Objects.** An object within the limit passes or fails by its entries, and takes in the keys that are
    lacking; anything else is refused. -/
theorem gives_object {rule : Rule} {R : String × Value → Verdict → Prop}
    {A : String × Schema → Value → Prop} (hrule : rule.IsKeyed)
    (hrefused : v.kind ≠ .object ∨ pos.exceeded = true → post ⟨false, v⟩)
    (hgov : ∀ e s, rule.governor? e.1 = some s → s.Gives base pos.descend e.2 (R e))
    (hfree : ∀ e, rule.governor? e.1 = none → R e ⟨true, e.2⟩)
    (hlack : ∀ field ∈ rule.declared, ∀ d, field.2.default? = some d →
      (field.2.fill pos.descend d).Ensures base fun c => A field c.value)
    (h : ∀ fields, v = .object fields → pos.exceeded = false →
      ∀ (rs : List (String × Verdict)) (added : Fields Value),
        List.Forall₂ (fun e r => r.1 = e.1 ∧ R e r.2) fields rs →
        List.Forall₂ (fun field a => a.1 = field.1 ∧ A field a.2) (rule.lacking (Fields.keys fields)) added →
        post (.ofEntries rs added)) :
    Gives ⟨default?, rule⟩ base pos v post := by
  by_cases hv : v.kind ≠ .object ∨ pos.exceeded = true
  · exact gives_refused (Rule.container?_of_isKeyed hrule) hv (hrefused hv)
  · obtain ⟨hkind, hpos⟩ := not_or.mp hv
    obtain ⟨fields, rfl⟩ := Value.eq_object_of_kind (not_not.mp hkind)
    have h := h fields rfl (Bool.eq_false_iff.mpr hpos)
    rw [← List.map_id fields] at h ⊢
    exact gives_object_map hrule (Bool.eq_false_iff.mpr hpos) (fun e _ => hgov e) (fun e _ => hfree e)
      (fun field hf _ => hlack field hf) (by simpa using h)

/-- What an object rule leaves has all the keys that carry a default. -/
theorem mem_keys_completed {rule : Rule} {fields added : Fields Value} {rs : List (String × Verdict)}
    {R : String × Value → Verdict → Prop} {A : String × Schema → Value → Prop}
    (hrs : List.Forall₂ (fun e r => r.1 = e.1 ∧ R e r.2) fields rs)
    (hadded : List.Forall₂ (fun field a => a.1 = field.1 ∧ A field a.2) (rule.lacking fields.keys) added)
    {field : String × Schema} (hf : field ∈ rule.declared) (hdefault : field.2.default?.isSome) :
    field.1 ∈ Fields.keys (rs.map (fun r => (r.1, r.2.value)) ++ added) := by
  by_cases hk : field.1 ∈ fields.keys
  · obtain ⟨e, he, hkey⟩ := List.mem_map.mp hk
    obtain ⟨r, hr, hkey', -⟩ := exists_of_forall₂_left hrs he
    have hmem : (r.1, r.2.value) ∈ rs.map (fun r => (r.1, r.2.value)) ++ added :=
      List.mem_append_left _ (List.mem_map_of_mem (f := fun r : String × Verdict => (r.1, r.2.value)) hr)
    rw [← hkey, ← hkey']
    exact List.mem_map_of_mem (f := Prod.fst) hmem
  · obtain ⟨a, ha, hkey, -⟩ := exists_of_forall₂_left hadded (Rule.mem_lacking_iff.mpr ⟨hf, hk, hdefault⟩)
    rw [← hkey]
    exact List.mem_map_of_mem (f := Prod.fst) (List.mem_append_right _ ha)

end Schema

end ConfigSchema
