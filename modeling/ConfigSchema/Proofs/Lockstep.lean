import ConfigSchema.Proofs.Accounting
import ConfigSchema.Proofs.OrderIndependence
import ConfigSchema.Proofs.Postorder

/-!
# `Run.InStep` — nothing depends on which identities are fresh

Each callable of an injected default gets an identity that no other one has. Which one that is depends on what was drawn
before, so two validations of one value leave different documents. Apart from the fresh identities they are in step: they
log the same events in the same order, and both what they report and what they leave is the same
(`Schema.validate_inStep`).

With that, validations can be compared from one and the same supply of identities, where they can be *equal*. What has
been shown there holds from any two supplies.
-/

namespace ConfigSchema

open Checker

/-! ## Outcomes with other labels -/

namespace Outcome

variable {f : Value → Value} {g : Option String → Option String}

mutual

/-- The outcome with `f` applied to the refused values and `g` to the warnings. -/
def relabel (f : Value → Value) (g : Option String → Option String) : Outcome → Outcome
  | passed warning => passed (g warning)
  | failed expected actual warning => failed expected (f actual) (g warning)
  | items entries warning => items (relabelEntries f g entries) (g warning)

/-- The items with `f` applied to the refused values and `g` to the warnings. -/
def relabelEntries (f : Value → Value) (g : Option String → Option String) :
    List (Segment × Outcome) → List (Segment × Outcome)
  | [] => []
  | (segment, outcome) :: rest => (segment, relabel f g outcome) :: relabelEntries f g rest

end

theorem relabel_items (entries : List (Segment × Outcome)) (warning : Option String) :
    (items entries warning).relabel f g = items (entries.map fun e => (e.1, e.2.relabel f g)) (g warning) := by
  have hentries : relabelEntries f g entries = entries.map fun e => (e.1, e.2.relabel f g) := by
    induction entries with
    | nil => rfl
    | cons e rest ih => rw [relabelEntries, ih, List.map_cons]
  rw [relabel, hentries]

@[simp] theorem warning?_relabel (outcome : Outcome) : (outcome.relabel f g).warning? = g outcome.warning? := by
  cases outcome <;> rfl

theorem relabel_setWarning (warning : Option String) (outcome : Outcome) :
    (outcome.setWarning warning).relabel f g = (outcome.relabel f g).setWarning (g warning) := by
  cases outcome <;> rfl

/-- No verdict depends on a warning, or on a refused value. -/
@[simp] theorem isOk_relabel (outcome : Outcome) : (outcome.relabel f g).isOk = outcome.isOk := by
  induction outcome using Outcome.induction with
  | step outcome ih =>
      cases outcome with
      | passed warning => rfl
      | failed expected actual warning => rfl
      | items entries warning =>
          rw [relabel_items, Bool.eq_iff_iff, isOk_items_iff, isOk_items_iff]
          simp only [List.forall_mem_map]
          exact forall₂_congr fun e he => by rw [ih e he]

theorem relabel_relabel (f' : Value → Value) (g' : Option String → Option String) (outcome : Outcome) :
    (outcome.relabel f g).relabel f' g' = outcome.relabel (f' ∘ f) (g' ∘ g) := by
  induction outcome using Outcome.induction with
  | step outcome ih =>
      cases outcome with
      | passed warning => rfl
      | failed expected actual warning => rfl
      | items entries warning =>
          rw [relabel_items, relabel_items, relabel_items, List.map_map]
          exact congrArg (items · _) (List.map_congr_left fun e he => Prod.ext rfl (ih e he))

/-- **The outcome without fresh identities** in the values that it shows as refused. -/
def forget (base : Nat) (outcome : Outcome) : Outcome := outcome.relabel (Value.forget base) id

theorem forget_items (base : Nat) (entries : List (Segment × Outcome)) (warning : Option String) :
    (items entries warning).forget base = items (entries.map fun e => (e.1, e.2.forget base)) warning :=
  relabel_items entries warning

end Outcome

/-! ## The same, but for fresh identities -/

/-- **The values differ in fresh identities at most.** -/
def Value.Resembles (base : Nat) (v w : Value) : Prop := v.forget base = w.forget base

/-- **The outcomes differ in fresh identities at most.** -/
def Outcome.Resembles (base : Nat) (o o' : Outcome) : Prop := o.forget base = o'.forget base

/-- **The answers differ in fresh identities at most.** -/
def Checked.Resembles (base : Nat) (c c' : Checked) : Prop :=
  c.outcome.Resembles base c'.outcome ∧ c.value.Resembles base c'.value

namespace Value.Resembles

variable {base : Nat} {v w : Value}

theorem kind_eq (h : v.Resembles base w) : w.kind = v.kind := by
  have hkind := congrArg kind h
  rw [forget, forget, kind_relabel, kind_relabel] at hkind
  exact hkind.symm

theorem strictEq_eq (h : v.Resembles base w) {l : Value} (hl : l.Old base) : l.strictEq w = l.strictEq v := by
  rw [← strictEq_forget hl w, ← strictEq_forget hl v, h]

theorem of_items {items items' : List Value} (h : List.Forall₂ (Resembles base) items items') :
    Resembles base (.array items) (.array items') := by
  unfold Resembles
  rw [forget_array, forget_array, forall₂_map_eq (h.imp fun _ _ hx => hx.symm)]

theorem of_entries {fields fields' : Fields Value} (h : List.Forall₂ (SameKey (Resembles base)) fields fields') :
    Resembles base (.object fields) (.object fields') := by
  unfold Resembles
  rw [forget_object, forget_object, forall₂_entries_map_eq h]

theorem from_array {items : List Value} (h : Resembles base (.array items) w) :
    ∃ items', w = .array items' ∧ List.Forall₂ (Resembles base) items items' := by
  obtain ⟨items', rfl⟩ := eq_array_of_kind h.kind_eq
  refine ⟨items', rfl, ?_⟩
  unfold Resembles at h
  rw [forget_array, forget_array, array.injEq, ← List.forall₂_eq_eq_eq] at h
  rwa [List.forall₂_map_left_iff, List.forall₂_map_right_iff] at h

theorem from_object {fields : Fields Value} (h : Resembles base (.object fields) w) :
    ∃ fields', w = .object fields' ∧ List.Forall₂ (SameKey (Resembles base)) fields fields' := by
  obtain ⟨fields', rfl⟩ := eq_object_of_kind h.kind_eq
  refine ⟨fields', rfl, ?_⟩
  unfold Resembles at h
  rw [forget_object, forget_object, object.injEq, ← List.forall₂_eq_eq_eq] at h
  rw [List.forall₂_map_left_iff, List.forall₂_map_right_iff] at h
  exact h.imp fun _ _ he => Prod.mk.inj he

end Value.Resembles

namespace Outcome.Resembles

variable {base : Nat} {o o' : Outcome}

theorem isOk_eq (h : o.Resembles base o') : o.isOk = o'.isOk := by
  have hok := congrArg isOk h
  rwa [forget, forget, isOk_relabel, isOk_relabel] at hok

theorem failed (expected : String) {actual actual' : Value} (h : actual.Resembles base actual') :
    Resembles base (.mismatch expected actual) (.mismatch expected actual') :=
  congrArg (mismatch expected) h

theorem collection {entries entries' : List (Segment × Outcome)}
    (h : List.Forall₂ (fun e e' => e.1 = e'.1 ∧ e.2.Resembles base e'.2) entries entries') :
    Resembles base (.collection entries) (.collection entries') := by
  unfold Resembles Outcome.collection
  rw [forget_items, forget_items, forall₂_entries_map_eq h]

theorem appendWarning (h : o.Resembles base o') (text : String) :
    (o.appendWarning text).Resembles base (o'.appendWarning text) := by
  have hwarning := congrArg warning? h
  unfold Resembles forget at *
  rw [warning?_relabel, warning?_relabel] at hwarning
  unfold Outcome.appendWarning withWarning
  rw [relabel_setWarning, relabel_setWarning, h, show o.warning? = o'.warning? from hwarning]

end Outcome.Resembles

/-! ## Runs in step -/

namespace Run

variable {α β γ δ : Type} {base : Nat}

/-- **In step.** From any two supplies from `base` on, the results are related and the same events are logged. -/
def InStep (base : Nat) (same : α → β → Prop) (r : Run α) (s : Run β) : Prop :=
  CoincideFrom base same r s ∧
    ∀ next next', base ≤ next → base ≤ next' → (r.start next).events = (s.start next').events

namespace InStep

theorem pure {same : α → β → Prop} {a : α} {b : β} (h : same a b) : InStep base same (Pure.pure a) (Pure.pure b) :=
  ⟨.pure h, fun _ _ _ _ => rfl⟩

theorem log (event : Event) : InStep base (fun _ _ => True) (Run.log event) (Run.log event) :=
  ⟨.log event event, fun _ _ _ _ => rfl⟩

theorem bind {mid : α → β → Prop} {same : γ → δ → Prop} {r : Run α} {s : Run β} {f : α → Run γ} {g : β → Run δ}
    (hr : InStep base mid r s) (hf : ∀ a b, mid a b → InStep base same (f a) (g b)) :
    InStep base same (r >>= f) (s >>= g) := by
  refine ⟨hr.1.bind fun a b hab => (hf a b hab).1, fun next next' hn hn' => ?_⟩
  obtain ⟨hmid, hbase, hbase'⟩ := hr.1 next next' hn hn'
  rw [start_bind, start_bind, hr.2 next next' hn hn', (hf _ _ hmid).2 _ _ hbase hbase']

/-- Runs that are in step input by input are in step on the whole lists. -/
theorem mapM {S : α → β → Prop} {same : γ → δ → Prop} {f : α → Run γ} {g : β → Run δ} {l : List α} {l' : List β}
    (hl : List.Forall₂ S l l') (hf : ∀ a b, S a b → InStep base same (f a) (g b)) :
    InStep base (List.Forall₂ same) (l.mapM f) (l'.mapM g) := by
  induction hl with
  | nil => exact pure .nil
  | cons hab _ ih =>
      rw [List.mapM_cons, List.mapM_cons]
      refine bind (hf _ _ hab) fun c d hcd => ?_
      refine bind ih fun cs ds hcds => ?_
      exact pure (.cons hcd hcds)

end InStep

end Run

/-- Copies of one value log nothing, and differ in fresh identities only. -/
theorem Value.inStep_deepCopy (base : Nat) (v : Value) :
    Run.InStep base (Value.Resembles base) v.deepCopy v.deepCopy := by
  have hforget := v.ensures_forget_deepCopy base
  refine ⟨.of_ensures hforget hforget fun copy copy' h h' => h.trans h'.symm, fun next next' _ _ => ?_⟩
  rw [(v.start_deepCopy next).1, (v.start_deepCopy next').1]

/-! ## Steady checkers -/

namespace Checker

/-- **Steadiness.** On values that differ in fresh identities, the check is in step with itself. -/
def Steady (base : Nat) (check : Checker) : Prop :=
  ∀ pos v v', v.Resembles base v' → Run.InStep base (Checked.Resembles base) (check pos v) (check pos v')

variable {base : Nat} {check first second element : Checker} {pos : Position}

theorem steady_accept : accept.Steady base := fun _ _ _ h => .pure ⟨rfl, h⟩

theorem steady_reject (expected : String) : (reject expected).Steady base :=
  fun _ _ _ h => .pure ⟨.failed expected h, h⟩

/-- A test that does not see fresh identities is steady. -/
theorem steady_test (test : Value → Prop) [DecidablePred test] (expected : String)
    (htest : ∀ v v', v.Resembles base v' → (test v' ↔ test v)) :
    Steady base fun pos v => if test v then accept pos v else reject expected pos v := by
  intro pos v v' h
  simp only [htest v v' h]
  split
  · exact steady_accept pos v v' h
  · exact steady_reject expected pos v v' h

theorem steady_ofKind (k : Kind) (expected : String) : (ofKind k expected).Steady base :=
  steady_test (fun v => v.kind = k) expected fun v v' h => by rw [h.kind_eq]

/-- No fresh callable is one of the literals. -/
theorem steady_literal {literals : List Value} (hold : ∀ l ∈ literals, l.Old base) (expected : String) :
    (literal literals expected).Steady base := by
  refine steady_test (fun v => (literals.any fun l => l.strictEq v) = true) expected fun v v' h => ?_
  rw [List.any_eq_true, List.any_eq_true]
  refine exists_congr fun l => and_congr_right fun hl => ?_
  rw [h.strictEq_eq (hold l hl)]

theorem Steady.advising (warning : String) (h : check.Steady base) : (advising warning check).Steady base := by
  intro pos v v' hv
  exact Run.InStep.bind (h pos v v' hv) fun c c' hc => .pure ⟨hc.1.appendWarning warning, hc.2⟩

theorem Steady.andThen (hfirst : first.Steady base) (hsecond : second.Steady base) :
    (andThen first second).Steady base := by
  intro pos v v' hv
  refine Run.InStep.bind (hfirst pos v v' hv) fun c c' hc => ?_
  rw [hc.1.isOk_eq]
  split
  · exact hsecond pos c.value c'.value hc.2
  · exact .pure hc

theorem steady_firstOf (expected : String) {checks : List Checker} (h : ∀ check ∈ checks, check.Steady base) :
    (firstOf expected checks).Steady base := by
  induction checks with
  | nil => exact steady_reject expected
  | cons check rest ih =>
      intro pos v v' hv
      refine Run.InStep.bind (h check List.mem_cons_self pos v v' hv) fun c c' hc => ?_
      rw [hc.1.isOk_eq]
      split
      · exact .pure hc
      · exact ih (fun check' h' => h check' (List.mem_cons_of_mem check h')) pos c.value c'.value hc.2

theorem steady_tooDeep : tooDeep.Steady base :=
  fun pos v v' hv => Run.InStep.bind (.log _) fun _ _ _ => steady_reject _ pos v v' hv

theorem Steady.elements (h : element.Steady base) : (elements element).Steady base := by
  intro pos v v' hv
  by_cases hkind : v.kind = .array
  · obtain ⟨items, rfl⟩ := Value.eq_array_of_kind hkind
    obtain ⟨items', rfl, hitems⟩ := hv.from_array
    rw [Checker.elements, Checker.elements]
    split
    · exact steady_tooDeep pos _ _ hv
    · refine Run.InStep.bind (Run.InStep.mapM hitems (h pos.descend)) fun rs rs' hrs => ?_
      refine .pure ⟨.collection (forall₂_reported Segment.index (hrs.imp fun _ _ hr => hr.1)), .of_items ?_⟩
      rw [List.forall₂_map_left_iff, List.forall₂_map_right_iff]
      exact hrs.imp fun _ _ hr => hr.2
  · have hkind' : v'.kind ≠ .array := hv.kind_eq ▸ hkind
    rw [elements_of_kind_ne hkind, elements_of_kind_ne hkind']
    exact steady_reject _ pos v v' hv

theorem inStep_inject {slot : Slot} (h : slot.check.Steady base) (pos : Position) (d : Value) :
    Run.InStep base (SameKey (Value.Resembles base)) (slot.inject pos d) (slot.inject pos d) := by
  refine Run.InStep.bind (.log _) fun _ _ _ => ?_
  refine Run.InStep.bind (Value.inStep_deepCopy base d) fun copy copy' hcopy => ?_
  exact Run.InStep.bind (h pos copy copy' hcopy) fun c c' hc => .pure ⟨rfl, hc.2⟩

/-- The same keys are filled, with copies that differ in fresh identities. -/
theorem inStep_injections {slots : List Slot} (hslots : ∀ slot ∈ slots, slot.check.Steady base)
    {fields fields' : Fields Value} (h : Fields.keys fields = Fields.keys fields') (pos : Position) :
    Run.InStep base (List.Forall₂ (SameKey (Value.Resembles base)))
      ((Slot.missing slots fields).mapM fun m => m.1.inject pos m.2)
      ((Slot.missing slots fields').mapM fun m => m.1.inject pos m.2) := by
  rw [← missing_eq_of_keys_eq slots h]
  refine Run.InStep.mapM (forall₂_self _) ?_
  rintro _ m ⟨hm, rfl⟩
  exact inStep_inject (hslots m.1 (mem_missing hm).1) pos m.2

theorem steady_entries {checkOf : String → Checker} {slots : List Slot} (hcheck : ∀ key, (checkOf key).Steady base)
    (hslots : ∀ slot ∈ slots, slot.check.Steady base) : (entries checkOf slots).Steady base := by
  intro pos v v' hv
  by_cases hkind : v.kind = .object
  · obtain ⟨fields, rfl⟩ := Value.eq_object_of_kind hkind
    obtain ⟨fields', rfl, hfields⟩ := hv.from_object
    rw [entries, entries]
    split
    · exact steady_tooDeep pos _ _ hv
    · have hentry : ∀ e e' : String × Value, SameKey (Value.Resembles base) e e' →
          Run.InStep base (SameKey (Checked.Resembles base)) (Prod.mk e.1 <$> checkOf e.1 pos.descend e.2)
            (Prod.mk e'.1 <$> checkOf e'.1 pos.descend e'.2) := by
        rintro ⟨key, x⟩ ⟨_, x'⟩ ⟨rfl, hx⟩
        exact Run.InStep.bind (hcheck key pos.descend x x' hx) fun c c' hc => .pure ⟨rfl, hc⟩
      have hkeys : Fields.keys fields = Fields.keys fields' := (forall₂_entries_iff.mp hfields).1
      refine Run.InStep.bind (Run.InStep.mapM hfields hentry) fun rs rs' hrs => ?_
      refine Run.InStep.bind (inStep_injections hslots hkeys pos.descend) fun added added' hadded => ?_
      refine .pure ⟨.collection ?_, .of_entries (List.rel_append ?_ hadded)⟩
      · rw [List.forall₂_map_left_iff, List.forall₂_map_right_iff]
        exact hrs.imp fun _ _ hr => ⟨congrArg Segment.key hr.1, hr.2.1⟩
      · rw [List.forall₂_map_left_iff, List.forall₂_map_right_iff]
        exact hrs.imp fun _ _ hr => ⟨hr.1, hr.2.2⟩
  · have hkind' : v'.kind ≠ .object := hv.kind_eq ▸ hkind
    rw [entries_of_kind_ne hkind, entries_of_kind_ne hkind']
    exact steady_reject _ pos v v' hv

end Checker

/-! ## Steady schemas -/

namespace Schema

variable {base : Nat} {s : Schema}

/-- **The checks of schemas are steady**, at every position. -/
theorem steady_check (hc : s.CustomFree) (hl : s.OldLiterals base) : s.check.Steady base := by
  have hclosed : Checker.Closed (Checker.Steady base) fun _ => True :=
    { accept := steady_accept
      ofKind := steady_ofKind
      andThen := Checker.Steady.andThen
      firstOf := steady_firstOf
      advising := fun warning {_} h => h.advising warning
      elements := Checker.Steady.elements
      entries := fun hcheck hslots _ => steady_entries hcheck hslots }
  refine hclosed.check ((hc.and hl).mono fun rule hrule => ?_)
  cases rule with
  | oneOf literals => exact steady_literal hrule.2 _
  | custom name check => exact absurd hrule.1 id
  | _ => exact trivial

/-- **Two validations of one value are in step.** Only the identities that they draw may differ, and nothing else that
    is reported or left depends on these. -/
theorem validate_inStep (hc : s.CustomFree) (hl : s.OldLiterals base) (limits : Limits) (v : Value) :
    Run.InStep base (Checked.Resembles base) (s.validate limits v) (s.validate limits v) :=
  steady_check hc hl (.root limits) v v rfl

end Schema

end ConfigSchema
