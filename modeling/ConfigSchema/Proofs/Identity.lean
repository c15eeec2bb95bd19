import ConfigSchema.Proofs.Closure
import ConfigSchema.Proofs.Gives

/-!
# `Schema.Impartial` — verdicts do not depend on fresh identities

The callables of injected defaults have fresh identities, and which ones depends on all that was drawn before.
This module shows that nothing else does. `Value.relabel f v` is `v` with its callables under other identities.
A run that starts from a supply `delay` further on does the same under identities that are `delay` further on
(`Run.Delayed`), if only the schema is impartial to the identities from `base` on (`Schema.Impartial`): no
literal has one of them, and no custom check tells them apart. So there is *the* verdict of a schema on a value
(`Schema.verdict`), and every verdict is that one, up to fresh identities (`Impartial.gives_verdict`).

"Up to fresh identities" is equality of what is left when they are forgotten (`Value.forget`).

## Contents
- `Value.callables`, `Value.relabel`, and two ways to relabel: `later` and `Value.forget`.
- `Run.Delayed`, with one rule for each monad operation.
- `Checker.Impartial`, checker by checker, and `Schema.Impartial`.
-/

namespace ConfigSchema

open Checker

/-! ## Other identities -/

namespace Value

mutual

/-- The callables in a value, one for each occurrence. -/
def callables : Value → List Callable
  | array items => callablesOfItems items
  | object fields => callablesOfFields fields
  | function f => [f]
  | _ => []

/-- The callables in the elements. -/
def callablesOfItems : List Value → List Callable
  | [] => []
  | v :: rest => callables v ++ callablesOfItems rest

/-- The callables in the entries. -/
def callablesOfFields : List (String × Value) → List Callable
  | [] => []
  | (_, v) :: rest => callables v ++ callablesOfFields rest

end

mutual

/-- The value with every identity `id` in it replaced by `f id`. -/
def relabel (f : Nat → Nat) : Value → Value
  | array items => array (relabelItems f items)
  | object fields => object (relabelFields f fields)
  | function c => function (c.rebind (f c.id))
  | v => v

/-- The elements under other identities. -/
def relabelItems (f : Nat → Nat) : List Value → List Value
  | [] => []
  | v :: rest => relabel f v :: relabelItems f rest

/-- The entries under other identities. -/
def relabelFields (f : Nat → Nat) : List (String × Value) → List (String × Value)
  | [] => []
  | (key, v) :: rest => (key, relabel f v) :: relabelFields f rest

end

variable {f g : Nat → Nat}

theorem relabelItems_eq_map (f : Nat → Nat) (items : List Value) : relabelItems f items = items.map (relabel f) := by
  induction items with
  | nil => rfl
  | cons v rest ih => rw [relabelItems, ih, List.map_cons]

theorem relabelFields_eq_map (f : Nat → Nat) (fields : Fields Value) :
    relabelFields f fields = fields.map fun e => (e.1, e.2.relabel f) := by
  induction fields with
  | nil => rfl
  | cons e rest ih => rw [relabelFields, ih, List.map_cons]

theorem relabel_array (f : Nat → Nat) (items : List Value) :
    (array items).relabel f = array (items.map (relabel f)) := by
  rw [relabel, relabelItems_eq_map]

theorem relabel_object (f : Nat → Nat) (fields : Fields Value) :
    (object fields).relabel f = object (fields.map fun e => (e.1, e.2.relabel f)) := by
  rw [relabel, relabelFields_eq_map]

@[simp] theorem kind_relabel (f : Nat → Nat) (v : Value) : (v.relabel f).kind = v.kind := by
  cases v <;> rfl

mutual

/-- Relabelling twice is relabelling once. -/
theorem relabel_relabel (f g : Nat → Nat) : ∀ v : Value, (v.relabel f).relabel g = v.relabel (g ∘ f)
  | array items => congrArg array (relabelItems_relabelItems f g items)
  | object fields => congrArg object (relabelFields_relabelFields f g fields)
  | function _ | undefined | null | bool _ | number _ | string _ | regexp _ => rfl

theorem relabelItems_relabelItems (f g : Nat → Nat) :
    ∀ items, relabelItems g (relabelItems f items) = relabelItems (g ∘ f) items
  | [] => rfl
  | v :: rest => congrArg₂ List.cons (relabel_relabel f g v) (relabelItems_relabelItems f g rest)

theorem relabelFields_relabelFields (f g : Nat → Nat) :
    ∀ fields, relabelFields g (relabelFields f fields) = relabelFields (g ∘ f) fields
  | [] => rfl
  | (key, v) :: rest =>
      congrArg₂ List.cons (congrArg (Prod.mk key) (relabel_relabel f g v)) (relabelFields_relabelFields f g rest)

end

mutual

/-- A value whose identities stay is not changed. -/
theorem relabel_eq_self : ∀ v : Value, (∀ c ∈ v.callables, f c.id = c.id) → v.relabel f = v
  | array items, h => congrArg array (relabelItems_eq_self items h)
  | object fields, h => congrArg object (relabelFields_eq_self fields h)
  | function c, h => by rw [relabel, h c List.mem_cons_self]; rfl
  | undefined, _ | null, _ | bool _, _ | number _, _ | string _, _ | regexp _, _ => rfl

theorem relabelItems_eq_self :
    ∀ items, (∀ c ∈ callablesOfItems items, f c.id = c.id) → relabelItems f items = items
  | [], _ => rfl
  | v :: rest, h =>
      congrArg₂ List.cons (relabel_eq_self v fun c hc => h c (List.mem_append_left _ hc))
        (relabelItems_eq_self rest fun c hc => h c (List.mem_append_right _ hc))

theorem relabelFields_eq_self :
    ∀ fields, (∀ c ∈ callablesOfFields fields, f c.id = c.id) → relabelFields f fields = fields
  | [], _ => rfl
  | (key, v) :: rest, h =>
      congrArg₂ List.cons
        (congrArg (Prod.mk key) (relabel_eq_self v fun c hc => h c (List.mem_append_left _ hc)))
        (relabelFields_eq_self rest fun c hc => h c (List.mem_append_right _ hc))

end

/-! ### Old and fresh identities -/

/-- **Old values.** No callable in the value has an identity from `base` on. -/
def Old (base : Nat) (v : Value) : Prop := ∀ c ∈ v.callables, c.id < base

instance (base : Nat) : DecidablePred (Old base) :=
  fun v => inferInstanceAs (Decidable (∀ c ∈ v.callables, c.id < base))

theorem old_of_mem_fields {base : Nat} {fields : Fields Value} (h : (object fields).Old base)
    {e : String × Value} (he : e ∈ fields) : e.2.Old base := by
  intro c hc
  refine h c ?_
  rw [callables]
  clear h
  induction fields with
  | nil => exact absurd he List.not_mem_nil
  | cons first rest ih =>
      rw [callablesOfFields, List.mem_append]
      rcases List.mem_cons.mp he with rfl | he
      · exact .inl hc
      · exact .inr (ih he)

end Value

/-- The identity that is drawn instead of `id` if `delay` others from `base` on are drawn before. -/
def later (base delay id : Nat) : Nat := if id < base then id else id + delay

theorem later_of_lt {base id : Nat} (h : id < base) (delay : Nat) : later base delay id = id := if_pos h

theorem later_of_le {base id : Nat} (h : base ≤ id) (delay : Nat) : later base delay id = id + delay :=
  if_neg (Nat.not_lt_of_le h)

namespace Value

variable {base delay : Nat} {v w : Value}

/-- **The value without its fresh identities.** All that are not below `base` become one. -/
def forget (base : Nat) (v : Value) : Value := v.relabel fun id => min id base

theorem forget_array (base : Nat) (items : List Value) :
    (array items).forget base = array (items.map (forget base)) :=
  relabel_array _ items

theorem forget_object (base : Nat) (fields : Fields Value) :
    (object fields).forget base = object (fields.map fun e => (e.1, e.2.forget base)) :=
  relabel_object _ fields

/-- What is drawn later is forgotten as well. -/
theorem forget_later (base delay : Nat) (v : Value) : (v.relabel (later base delay)).forget base = v.forget base := by
  rw [forget, relabel_relabel]
  refine congrArg (relabel · v) (funext fun id => ?_)
  show min (later base delay id) base = min id base
  unfold later
  split <;> omega

theorem Old.later (h : v.Old base) (delay : Nat) : v.relabel (later base delay) = v :=
  relabel_eq_self v fun c hc => later_of_lt (h c hc) delay

/-- A literal does not see other identities, if they are its own where they were. -/
theorem strictEq_relabel {l : Value} {f : Nat → Nat} (h : ∀ c ∈ l.callables, ∀ id, c.id = f id ↔ c.id = id)
    (v : Value) : l.strictEq (v.relabel f) = l.strictEq v := by
  cases v with
  | function g =>
      cases l with
      | function c =>
          show decide (c.id = f g.id) = decide (c.id = g.id)
          exact decide_eq_decide.mpr (h c List.mem_cons_self g.id)
      | _ => rfl
  | array items => cases l <;> rfl
  | object fields => cases l <;> rfl
  | _ => rfl

/-- An old literal is not matched by a fresh callable, whichever it is. -/
theorem strictEq_later {l : Value} (h : l.Old base) (delay : Nat) (v : Value) :
    l.strictEq (v.relabel (ConfigSchema.later base delay)) = l.strictEq v := by
  refine strictEq_relabel (fun c hc id => ?_) v
  have hold : c.id < base := h c hc
  unfold ConfigSchema.later
  split <;> omega

theorem strictEq_forget {l : Value} (h : l.Old base) (v : Value) :
    l.strictEq (v.forget base) = l.strictEq v := by
  refine strictEq_relabel (fun c hc id => ?_) v
  have hold : c.id < base := h c hc
  show c.id = min id base ↔ c.id = id
  omega

end Value

/-! ## Runs from a later supply -/

namespace Run

variable {α β γ δ : Type} {base delay : Nat}

/-- **Delay.** From any supply from `base` on, `r` yields results that are related by `same` to those of `s` from
    the supply `delay` further on, and draws as many identities. -/
def Delayed (base delay : Nat) (same : α → β → Prop) (r : Run α) (s : Run β) : Prop :=
  ∀ next, base ≤ next → same (r.start next).result (s.start (next + delay)).result ∧
    (s.start (next + delay)).next = (r.start next).next + delay ∧ base ≤ (r.start next).next

namespace Delayed

theorem pure {same : α → β → Prop} {a : α} {b : β} (h : same a b) :
    Delayed base delay same (Pure.pure a) (Pure.pure b) :=
  fun _ hn => ⟨h, rfl, hn⟩

theorem log (event event' : Event) : Delayed base delay (fun _ _ => True) (Run.log event) (Run.log event') :=
  fun _ hn => ⟨trivial, rfl, hn⟩

theorem fresh : Delayed base delay (fun id id' => id' = later base delay id) Run.fresh Run.fresh :=
  fun next hn => ⟨(later_of_le hn delay).symm, Nat.add_right_comm next delay 1, Nat.le_succ_of_le hn⟩

theorem bind {mid : α → β → Prop} {same : γ → δ → Prop} {r : Run α} {s : Run β} {f : α → Run γ} {g : β → Run δ}
    (hr : Delayed base delay mid r s) (hf : ∀ a b, mid a b → Delayed base delay same (f a) (g b)) :
    Delayed base delay same (r >>= f) (s >>= g) := by
  intro next hn
  obtain ⟨hmid, hnext, hbase⟩ := hr next hn
  rw [start_bind, start_bind, hnext]
  exact hf _ _ hmid _ hbase

theorem mono {same same' : α → β → Prop} {r : Run α} {s : Run β} (h : Delayed base delay same r s)
    (hsame : ∀ a b, same a b → same' a b) : Delayed base delay same' r s :=
  fun next hn => ⟨hsame _ _ (h next hn).1, (h next hn).2⟩

theorem map {same : γ → δ → Prop} {r : Run α} {s : Run β} {f : α → γ} {g : β → δ}
    (h : Delayed base delay (fun a b => same (f a) (g b)) r s) : Delayed base delay same (f <$> r) (g <$> s) := by
  rw [map_eq_pure_bind, map_eq_pure_bind]
  exact bind h fun _ _ hab => pure hab

/-- Runs that are delayed input by input are delayed as a whole. -/
theorem mapM {S : α → β → Prop} {same : γ → δ → Prop} {f : α → Run γ} {g : β → Run δ} {l : List α} {l' : List β}
    (hl : List.Forall₂ S l l') (hf : ∀ a b, S a b → Delayed base delay same (f a) (g b)) :
    Delayed base delay (List.Forall₂ same) (l.mapM f) (l'.mapM g) := by
  induction hl with
  | nil => exact pure .nil
  | cons hab _ ih =>
      rw [List.mapM_cons, List.mapM_cons]
      refine bind (hf _ _ hab) fun c d hcd => ?_
      refine bind ih fun cs ds hcds => ?_
      exact pure (.cons hcd hcds)

/-- If every delay has a run yield what is related to its first result, all its results are. -/
theorem ensures_all {same : Nat → α → α → Prop} {post : α → Prop} {r : Run α}
    (h : ∀ delay, Delayed base delay (same delay) r r)
    (hpost : ∀ delay a, same delay (r.start base).result a → post a) : Ensures base post r := by
  intro next hn
  obtain ⟨hsame, hnext, hbase⟩ := h (next - base) base (Nat.le_refl base)
  rw [Nat.add_sub_cancel' hn] at hsame hnext
  exact ⟨hpost _ _ hsame, hnext ▸ Nat.le_add_right_of_le hbase⟩

end Delayed

end Run

namespace Value

variable {base delay : Nat}

mutual

/-- Copies are delayed, whatever identities are in the value that is copied. -/
theorem delayed_deepCopy :
    ∀ v : Value, Run.Delayed base delay (fun w w' => w' = w.relabel (later base delay)) v.deepCopy v.deepCopy
  | array items => .map ((delayed_deepCopyItems items).mono fun _ _ h => congrArg array h)
  | object fields => .map ((delayed_deepCopyFields fields).mono fun _ _ h => congrArg object h)
  | function c => .map (Run.Delayed.fresh.mono fun _ _ h => congrArg (fun id => function (c.rebind id)) h)
  | undefined | null | bool _ | number _ | string _ | regexp _ => .pure rfl

theorem delayed_deepCopyItems : ∀ items : List Value,
    Run.Delayed base delay (fun l l' => l' = relabelItems (later base delay) l) (deepCopyItems items)
      (deepCopyItems items)
  | [] => .pure rfl
  | v :: rest =>
      .bind (delayed_deepCopy v) fun _ _ hv => .bind (delayed_deepCopyItems rest) fun _ _ hrest =>
        .pure (congrArg₂ List.cons hv hrest)

theorem delayed_deepCopyFields : ∀ fields : List (String × Value),
    Run.Delayed base delay (fun l l' => l' = relabelFields (later base delay) l) (deepCopyFields fields)
      (deepCopyFields fields)
  | [] => .pure rfl
  | (key, v) :: rest =>
      .bind (delayed_deepCopy v) fun _ _ hv => .bind (delayed_deepCopyFields rest) fun _ _ hrest =>
        .pure (congrArg₂ List.cons (congrArg (Prod.mk key) hv) hrest)

end

/-- All copies of a value are one, but for their fresh identities. -/
theorem ensures_forget_deepCopy (base : Nat) (v : Value) :
    v.deepCopy.Ensures base fun copy => copy.forget base = (v.deepCopy.start base).result.forget base := by
  refine Run.Delayed.ensures_all (fun delay => delayed_deepCopy v) fun delay copy hcopy => ?_
  rw [hcopy, forget_later]

end Value

/-! ## Impartial checkers -/

/-- The verdict with the value under other identities. -/
def Verdict.relabel (f : Nat → Nat) (r : Verdict) : Verdict := ⟨r.ok, r.value.relabel f⟩

namespace Verdict

theorem ofElements_relabel (f : Nat → Nat) (rs : List Verdict) :
    ofElements (rs.map (relabel f)) = (ofElements rs).relabel f := by
  rw [ofElements, ofElements, relabel, Value.relabel_array, List.all_map, List.map_map, List.map_map]
  rfl

theorem ofEntries_relabel (f : Nat → Nat) (rs : List (String × Verdict)) (added : Fields Value) :
    ofEntries (rs.map fun r => (r.1, r.2.relabel f)) (added.map fun e => (e.1, e.2.relabel f)) =
      (ofEntries rs added).relabel f := by
  rw [ofEntries, ofEntries, relabel, Value.relabel_object, List.all_map, List.map_append, List.map_map,
    List.map_map]
  rfl

end Verdict

theorem Checked.verdict_eq_relabel_iff {f : Nat → Nat} {a b : Checked} :
    b.verdict = a.verdict.relabel f ↔ b.outcome.isOk = a.outcome.isOk ∧ b.value = a.value.relabel f := by
  unfold verdict Verdict.relabel
  rw [Verdict.mk.injEq]

/-- From a later supply, `s` reaches the verdict of `r`, under later identities. -/
def DelayedVerdict (base delay : Nat) (r s : Run Checked) : Prop :=
  Run.Delayed base delay (fun c c' => c'.verdict = c.verdict.relabel (later base delay)) r s

/-- What is known of the verdicts of two runs is known of two that reach the same verdicts. -/
theorem DelayedVerdict.congr {base delay : Nat} {r r' s s' : Run Checked} (h : DelayedVerdict base delay r s)
    (hr : SameVerdict r r') (hs : SameVerdict s s') : DelayedVerdict base delay r' s' := by
  intro next hn
  obtain ⟨hverdict, hnext, hbase⟩ := h next hn
  obtain ⟨hr, hrnext⟩ := hr next
  obtain ⟨hs, hsnext⟩ := hs (next + delay)
  rw [hr, hs] at hverdict
  rw [hrnext, hsnext] at hnext
  exact ⟨hverdict, hnext, hrnext ▸ hbase⟩

namespace Checker

/-- **Impartiality.** To relabel the value and to delay the supply is to relabel what the check leaves. -/
def Impartial (base : Nat) (check : Checker) : Prop :=
  ∀ delay pos v, DelayedVerdict base delay (check pos v) (check pos (v.relabel (later base delay)))

variable {base : Nat} {check first second element : Checker}

theorem impartial_accept : accept.Impartial base := fun _ _ _ => .pure rfl

theorem impartial_reject (expected : String) : (reject expected).Impartial base := fun _ _ _ => .pure rfl

/-- A test that sees no difference is impartial. -/
theorem impartial_test (test : Value → Prop) [DecidablePred test] (expected : String)
    (h : ∀ delay v, test (v.relabel (later base delay)) ↔ test v) :
    Impartial base fun pos v => if test v then accept pos v else reject expected pos v := by
  intro delay pos v
  simp only [h delay v]
  split
  · exact impartial_accept delay pos v
  · exact impartial_reject expected delay pos v

theorem impartial_ofKind (k : Kind) (expected : String) : (ofKind k expected).Impartial base :=
  impartial_test (fun v => v.kind = k) expected fun _ v => by rw [Value.kind_relabel]

theorem impartial_literal {literals : List Value} (hold : ∀ l ∈ literals, l.Old base) (expected : String) :
    (literal literals expected).Impartial base := by
  refine impartial_test (fun v => (literals.any fun l => l.strictEq v) = true) expected fun delay v => ?_
  rw [List.any_eq_true, List.any_eq_true]
  refine exists_congr fun l => and_congr_right fun hl => ?_
  rw [Value.strictEq_later (hold l hl)]

theorem Impartial.advising (warning : String) (h : check.Impartial base) :
    (advising warning check).Impartial base :=
  fun delay pos v =>
    (h delay pos v).congr (advising_sameVerdict warning check pos v) (advising_sameVerdict warning check pos _)

theorem Impartial.andThen (hfirst : first.Impartial base) (hsecond : second.Impartial base) :
    (andThen first second).Impartial base := by
  intro delay pos v
  refine Run.Delayed.bind (hfirst delay pos v) fun c c' hc => ?_
  obtain ⟨hok, hvalue⟩ := Checked.verdict_eq_relabel_iff.mp hc
  rw [hok, hvalue]
  split
  · exact hsecond delay pos c.value
  · exact Run.Delayed.pure hc

theorem impartial_firstOf (expected : String) {checks : List Checker}
    (h : ∀ check ∈ checks, check.Impartial base) : (firstOf expected checks).Impartial base := by
  induction checks with
  | nil => exact impartial_reject expected
  | cons check rest ih =>
      intro delay pos v
      refine Run.Delayed.bind (h check List.mem_cons_self delay pos v) fun c c' hc => ?_
      obtain ⟨hok, hvalue⟩ := Checked.verdict_eq_relabel_iff.mp hc
      rw [hok, hvalue]
      split
      · exact Run.Delayed.pure hc
      · exact ih (fun check' h' => h check' (List.mem_cons_of_mem check h')) delay pos c.value

theorem impartial_tooDeep : tooDeep.Impartial base :=
  fun delay pos v => Run.Delayed.bind (Run.Delayed.log _ _) fun _ _ _ => impartial_reject _ delay pos v

theorem Impartial.elements (h : element.Impartial base) : (elements element).Impartial base := by
  intro delay pos v
  cases v with
  | array items =>
      rw [Value.relabel_array, Checker.elements, Checker.elements]
      split
      · rw [← Value.relabel_array]
        exact impartial_tooDeep delay pos _
      · have hitems : List.Forall₂ (fun x y => y = x.relabel (later base delay)) items
            (items.map (Value.relabel (later base delay))) :=
          List.forall₂_map_right_iff.mpr (List.forall₂_same.mpr fun _ _ => rfl)
        refine Run.Delayed.bind (Run.Delayed.mapM hitems fun x y hxy => hxy ▸ h delay pos.descend x) ?_
        intro results results' hresults
        have hverdicts : results'.map Checked.verdict =
            (results.map Checked.verdict).map (Verdict.relabel (later base delay)) := by
          rw [List.map_map]
          exact forall₂_map_eq hresults
        refine Run.Delayed.pure ?_
        rw [verdict_elements, verdict_elements, hverdicts, Verdict.ofElements_relabel]
  | _ => exact impartial_reject _ delay pos _

theorem delayed_inject {slot : Slot} (h : slot.check.Impartial base) (delay : Nat) (pos : Position) (d : Value) :
    Run.Delayed base delay (fun e e' => e' = (e.1, e.2.relabel (later base delay))) (slot.inject pos d)
      (slot.inject pos d) := by
  refine Run.Delayed.bind (Run.Delayed.log _ _) fun _ _ _ => ?_
  refine Run.Delayed.bind (Value.delayed_deepCopy d) fun copy copy' hcopy => ?_
  subst hcopy
  refine Run.Delayed.bind (h delay pos copy) fun c c' hc => Run.Delayed.pure ?_
  rw [(Checked.verdict_eq_relabel_iff.mp hc).2]

/-- The entries under other identities are checked to verdicts under other identities. -/
theorem delayed_entries {checkOf : String → Checker} (hcheck : ∀ key, (checkOf key).Impartial base) (delay : Nat)
    (pos : Position) (fields : Fields Value) :
    Run.Delayed base delay
      (fun rs rs' : List (String × Checked) => (rs'.map fun r => (r.1, r.2.verdict)) =
        (rs.map fun r => (r.1, r.2.verdict)).map fun r => (r.1, r.2.relabel (later base delay)))
      (fields.mapM fun e => Prod.mk e.1 <$> checkOf e.1 pos e.2)
      ((fields.map fun e => (e.1, e.2.relabel (later base delay))).mapM fun e =>
        Prod.mk e.1 <$> checkOf e.1 pos e.2) := by
  have hfields : List.Forall₂ (fun e e' => e' = (e.1, e.2.relabel (later base delay))) fields
      (fields.map fun e => (e.1, e.2.relabel (later base delay))) :=
    List.forall₂_map_right_iff.mpr (List.forall₂_same.mpr fun _ _ => rfl)
  have hentry : ∀ e e' : String × Value, e' = (e.1, e.2.relabel (later base delay)) →
      Run.Delayed base delay (fun r r' => (r'.1, r'.2.verdict) = (r.1, r.2.verdict.relabel (later base delay)))
        (Prod.mk e.1 <$> checkOf e.1 pos e.2) (Prod.mk e'.1 <$> checkOf e'.1 pos e'.2) := by
    rintro e _ rfl
    exact Run.Delayed.map ((hcheck e.1 delay pos e.2).mono fun c c' hc => Prod.ext rfl hc)
  refine (Run.Delayed.mapM hfields hentry).mono fun rs rs' hrs => ?_
  rw [List.map_map]
  exact forall₂_map_eq hrs

/-- The same defaults are copied, under other identities. -/
theorem delayed_injections {slots : List Slot} (hslots : ∀ slot ∈ slots, slot.check.Impartial base) (delay : Nat)
    (pos : Position) (fields : Fields Value) :
    Run.Delayed base delay (fun added added' => added' = added.map fun e => (e.1, e.2.relabel (later base delay)))
      ((Slot.missing slots fields).mapM fun m => m.1.inject pos m.2)
      ((Slot.missing slots fields).mapM fun m => m.1.inject pos m.2) := by
  have hinject : ∀ m m' : Slot × Value, m ∈ Slot.missing slots fields ∧ m' = m →
      Run.Delayed base delay (fun e e' => e' = (e.1, e.2.relabel (later base delay)))
        (m.1.inject pos m.2) (m'.1.inject pos m'.2) := by
    rintro _ m ⟨hm, rfl⟩
    exact delayed_inject (hslots m.1 (mem_missing hm).1) delay pos m.2
  refine (Run.Delayed.mapM (forall₂_self _) hinject).mono fun added added' hadded => ?_
  rw [← List.map_id added']
  exact forall₂_map_eq hadded

theorem impartial_entries {checkOf : String → Checker} {slots : List Slot}
    (hcheck : ∀ key, (checkOf key).Impartial base) (hslots : ∀ slot ∈ slots, slot.check.Impartial base) :
    (entries checkOf slots).Impartial base := by
  intro delay pos v
  cases v with
  | object fields =>
      rw [Value.relabel_object, entries, entries]
      split
      · rw [← Value.relabel_object]
        exact impartial_tooDeep delay pos _
      · refine Run.Delayed.bind (delayed_entries hcheck delay pos.descend fields) fun rs rs' hverdicts => ?_
        -- Other identities leave the keys alone, so the same keys are missing.
        have hkeys : Fields.keys (fields.map fun e => (e.1, e.2.relabel (later base delay))) = Fields.keys fields := by
          rw [Fields.keys, Fields.keys, List.map_map]
          rfl
        rw [missing_eq_of_keys_eq slots hkeys]
        refine Run.Delayed.bind (delayed_injections hslots delay pos.descend fields) fun added added' hadded => ?_
        refine Run.Delayed.pure ?_
        rw [verdict_entries, verdict_entries, hverdicts, hadded, Verdict.ofEntries_relabel]
  | _ => exact impartial_reject _ delay pos _

end Checker

/-! ## Impartial schemas -/

namespace Schema

/-- **Impartial schemas** do not tell the identities from `base` on apart. Their literals have none of them, and
    what a custom check leaves of a value is the same, but for relabelling, if the value is relabelled and the
    supply delayed. -/
def Impartial (base : Nat) : Schema → Prop :=
  Everywhere fun
    | .oneOf literals => ∀ l ∈ literals, l.Old base
    | .custom _ check => ∀ delay limits v,
        DelayedVerdict base delay (check limits v) (check limits (v.relabel (later base delay)))
    | _ => True

/-- Every literal in the schema is old. -/
def OldLiterals (base : Nat) : Schema → Prop :=
  Everywhere fun
    | .oneOf literals => ∀ l ∈ literals, l.Old base
    | _ => True

instance (base : Nat) : DecidablePred (OldLiterals base) :=
  @decideEverywhere _ fun
    | .oneOf literals => inferInstanceAs (Decidable (∀ l ∈ literals, l.Old base))
    | .any | .kind _ | .int | .compose .. | .array _ | .object .. | .objects .. | .either _ | .deprecated ..
    | .custom .. => .isTrue trivial

variable {base : Nat} {s : Schema} {pos : Position} {v : Value}

/-- Without custom checks, only the literals have to be looked at. -/
theorem CustomFree.impartial (hc : s.CustomFree) (hl : s.OldLiterals base) : s.Impartial base := by
  induction s using Schema.induction with
  | step s ih =>
      refine everywhere_iff.mpr ⟨?_, fun t ht => ih t ht (hc.part ht) (hl.part ht)⟩
      obtain ⟨default?, rule⟩ := s
      cases rule with
      | oneOf literals => exact hl.here
      | custom name check => exact absurd hc.here id
      | _ => trivial

/-- **The checks of impartial schemas are impartial**, at every position. -/
theorem Impartial.check (h : s.Impartial base) : s.check.Impartial base := by
  have hclosed : Checker.Closed (Checker.Impartial base) fun _ => True :=
    { accept := impartial_accept
      ofKind := impartial_ofKind
      andThen := Checker.Impartial.andThen
      firstOf := impartial_firstOf
      advising := fun warning {_} h => h.advising warning
      elements := Checker.Impartial.elements
      entries := fun hcheck hslots _ => impartial_entries hcheck hslots }
  refine hclosed.check (h.mono fun rule hrule => ?_)
  cases rule with
  | oneOf literals => exact impartial_literal hrule _
  | custom name check => exact fun delay pos v => hrule delay pos.remaining v
  | _ => exact trivial

/-! ### The verdict -/

/-- **The verdict of a schema** on a value, if the fresh identities are those from `base` on. -/
def verdict (s : Schema) (base : Nat) (pos : Position) (v : Value) : Verdict :=
  ((s.check pos v).start base).result.verdict

/-- What the schema leaves of a copy of a default. -/
def filled (s : Schema) (base : Nat) (pos : Position) (d : Value) : Value :=
  ((s.fill pos d).start base).result.value

/-- **Every verdict is the verdict**, up to fresh identities. -/
theorem Impartial.gives_verdict (h : s.Impartial base) (hv : v.Old base) (pos : Position) :
    s.Gives base pos v fun r =>
      r.ok = (s.verdict base pos v).ok ∧ r.value.forget base = (s.verdict base pos v).value.forget base := by
  have hdelayed : ∀ delay, DelayedVerdict base delay (s.check pos v) (s.check pos v) := by
    intro delay
    have hcheck := h.check delay pos v
    rwa [hv.later] at hcheck
  refine Run.Delayed.ensures_all hdelayed fun delay c hc => ?_
  obtain ⟨hok, hvalue⟩ := Checked.verdict_eq_relabel_iff.mp hc
  refine ⟨hok, ?_⟩
  show c.value.forget base = _
  rw [hvalue, Value.forget_later]
  rfl

/-- Every injected default is the one that is left of a copy, up to fresh identities. -/
theorem Impartial.ensures_filled (h : s.Impartial base) (pos : Position) (d : Value) :
    (s.fill pos d).Ensures base fun c => c.value.forget base = (s.filled base pos d).forget base := by
  have hdelayed : ∀ delay, DelayedVerdict base delay (s.fill pos d) (s.fill pos d) := by
    intro delay
    refine Run.Delayed.bind (Value.delayed_deepCopy d) fun copy copy' hcopy => ?_
    subst hcopy
    exact h.check delay pos copy
  refine Run.Delayed.ensures_all hdelayed fun delay c hc => ?_
  rw [(Checked.verdict_eq_relabel_iff.mp hc).2, Value.forget_later]
  rfl

end Schema

end ConfigSchema
