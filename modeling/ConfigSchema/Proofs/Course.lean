import ConfigSchema.Proofs.Closure
import ConfigSchema.Proofs.Journal

/-!
# `Course.Closed` — what injections keep, all validations have

All that a validation does to a value is to inject defaults, one after another, each somewhere in the value. A
`Course` is a relation between a supply and a value, a list of injections, and the supply and the value that these
leave. If it is closed (`Course.Closed`) — it holds of one injection, it carries over from a part of a value to the
whole, and what holds of two lists of injections holds of the one behind the other — then it holds of every validation
without custom checks (`Schema.follows`). The injections are those that the validation logs, in the order of the log.

This is the induction over a run: `Run.Follows` has one rule for each monad operation, and then each checker has a
lemma. What is to be known of all validations, and can be said of one injection, is an instance of it.
-/

namespace ConfigSchema

/-- Does the event say that a default was injected? -/
def Event.isInjection : Event → Bool
  | .injected .. => true
  | _ => false

/-- A relation between a supply and a value, the injections that are made, and the supply and the value afterwards. -/
abbrev Course : Type := Nat → Value → List Injection → Nat → Value → Prop

/-- **The courses that injections keep**, as far as `Admits` lets them in beside the keys of an object. -/
structure Course.Closed (Admits : List String → Injection → Prop) (R : Course) : Prop where
  refl : ∀ next v, R next v [] next v
  trans : ∀ {n m k u v w first second}, R n u first m v → R m v second k w → R n u (first ++ second) k w
  /-- The copy of a default stands behind the other entries. -/
  inject : ∀ next {fields : Fields Value} {i : Injection}, Admits fields.keys i →
    let copied := i.default.deepCopy.start next
    R next (.object fields) [i] copied.next (.object (fields ++ [(i.key, copied.result)]))
  element : ∀ {n m v w journal} before after, R n v journal m w →
    R n (.array (before ++ v :: after)) journal m (.array (before ++ w :: after))
  entry : ∀ {n m v w journal} before after key, R n v journal m w →
    R n (.object (before ++ (key, v) :: after)) journal m (.object (before ++ (key, w) :: after))

theorem Course.Closed.and {Admits : List String → Injection → Prop} {R S : Course} (hR : R.Closed Admits)
    (hS : S.Closed Admits) : Course.Closed Admits fun n v journal m w => R n v journal m w ∧ S n v journal m w where
  refl next v := ⟨hR.refl next v, hS.refl next v⟩
  trans h h' := ⟨hR.trans h.1 h'.1, hS.trans h.2 h'.2⟩
  inject next {_ _} h := ⟨hR.inject next h, hS.inject next h⟩
  element before after h := ⟨hR.element before after h.1, hS.element before after h.2⟩
  entry before after key h := ⟨hR.entry before after key h.1, hS.entry before after key h.2⟩

/-! ## Runs -/

namespace Run

variable {α β γ : Type} {R : Course} {Admits : List String → Injection → Prop} {view : α → Value} {v : Value}

/-- **The run takes the course `R`** from the value `v` to what the result shows, with the injections in its log. -/
def Follows (R : Course) (view : α → Value) (v : Value) (run : Run α) : Prop :=
  ∀ next, ∃ journal : List Injection,
    journal.map Injection.event = (run.start next).events.filter Event.isInjection ∧
    R next v journal (run.start next).next (view (run.start next).result)

namespace Follows

theorem pure (hR : R.Closed Admits) {a : α} (h : view a = v) : Follows R view v (Pure.pure a) :=
  fun next => ⟨[], rfl, h ▸ hR.refl next v⟩

/-- The courses of two runs, one after the other, are one course. The second run may rely on what the first one
    ensures. -/
theorem bind_of_ensures (hR : R.Closed Admits) {view' : β → Value} {post : α → Prop} {run : Run α} {f : α → Run β}
    (hrun : Follows R view v run) (hpost : run.Ensures 0 post)
    (hf : ∀ a, post a → Follows R view' (view a) (f a)) : Follows R view' v (run >>= f) := by
  intro next
  obtain ⟨first, hlog, hcourse⟩ := hrun next
  obtain ⟨second, hlog', hcourse'⟩ :=
    hf (run.start next).result (hpost next (Nat.zero_le next)).1 (run.start next).next
  refine ⟨first ++ second, ?_, hR.trans hcourse hcourse'⟩
  rw [start_bind, List.map_append, List.filter_append, hlog, hlog']

theorem bind (hR : R.Closed Admits) {view' : β → Value} {run : Run α} {f : α → Run β} (hrun : Follows R view v run)
    (hf : ∀ a, Follows R view' (view a) (f a)) : Follows R view' v (run >>= f) :=
  bind_of_ensures hR hrun (fun _ _ => ⟨trivial, Nat.zero_le _⟩) fun a (_ : True) => hf a

theorem map {view : β → Value} {run : Run α} {f : α → β} (h : Follows R (fun a => view (f a)) v run) :
    Follows R view v (f <$> run) := by
  intro next
  rw [start_map]
  exact h next

/-- A run on a part of a value takes its course in the whole value. -/
theorem inside (whole : Value → Value)
    (hwhole : ∀ {n m v w journal}, R n v journal m w → R n (whole v) journal m (whole w)) {run : Run α}
    (h : Follows R view v run) : Follows R (fun a => whole (view a)) (whole v) run := by
  intro next
  obtain ⟨journal, hlog, hcourse⟩ := h next
  exact ⟨journal, hlog, hwhole hcourse⟩

theorem log (hR : R.Closed Admits) {event : Event} (h : event.isInjection = false) :
    Follows R (fun _ => v) v (Run.log event) := by
  intro next
  refine ⟨[], ?_, hR.refl next v⟩
  rw [start_log, List.filter_cons_of_neg (Bool.eq_false_iff.mp h)]
  rfl

/-- An injection logs itself, and then a copy of its default stands behind the other entries. -/
theorem log_copy (hR : R.Closed Admits) {fields : Fields Value} {i : Injection} (h : Admits fields.keys i) :
    Follows R (fun copy => .object (fields ++ [(i.key, copy)])) (.object fields)
      (Run.log i.event >>= fun _ => i.default.deepCopy) := by
  intro next
  refine ⟨[i], ?_, hR.inject next h⟩
  rw [start_bind]
  show [i.event] = ([i.event] ++ (i.default.deepCopy.start next).events).filter Event.isInjection
  rw [(i.default.start_deepCopy next).1]
  rfl

/-- **One after another.** A value is put together from parts. If the run on each part takes its course in the whole
    value, whatever the other parts are, then so does the run on all of them. -/
theorem mapM (hR : R.Closed Admits) {whole : List γ → Value} {part : α → γ} {view : β → γ} {f : α → Run β}
    {l : List α}
    (h : ∀ a ∈ l, ∀ before after,
      Follows R (fun b => whole (before ++ view b :: after)) (whole (before ++ part a :: after)) (f a)) :
    Follows R (fun bs => whole (bs.map view)) (whole (l.map part)) (l.mapM f) := by
  induction l generalizing whole with
  | nil => exact pure hR rfl
  | cons a rest ih =>
      rw [List.mapM_cons]
      refine bind hR (h a List.mem_cons_self [] (rest.map part)) fun b => ?_
      -- The rest is run on a value whose first part is what the first run has left.
      have hrest : Follows R (fun bs => whole (view b :: bs.map view)) (whole (view b :: rest.map part))
          (rest.mapM f) :=
        @ih (fun parts => whole (view b :: parts)) fun x hx before after =>
          h x (List.mem_cons_of_mem a hx) (view b :: before) after
      exact bind hR hrest fun bs => pure hR rfl

end Follows

end Run

/-! ## Checkers -/

namespace Checker

variable {R : Course} {Admits : List String → Injection → Prop} {check first second element : Checker}

/-- **Checkers that take the course `R`** from the value that they are given to the value that they leave. -/
def Follows (R : Course) (check : Checker) : Prop := ∀ pos v, (check pos v).Follows R (fun c => c.value) v

theorem follows_accept (hR : R.Closed Admits) : accept.Follows R := fun _ _ => .pure hR rfl

theorem follows_reject (hR : R.Closed Admits) (expected : String) : (reject expected).Follows R :=
  fun _ _ => .pure hR rfl

theorem follows_ofKind (hR : R.Closed Admits) (k : Kind) (expected : String) : (ofKind k expected).Follows R := by
  intro pos v
  unfold ofKind
  split
  · exact follows_accept hR pos v
  · exact follows_reject hR expected pos v

theorem follows_literal (hR : R.Closed Admits) (literals : List Value) (expected : String) :
    (literal literals expected).Follows R := by
  intro pos v
  unfold literal
  split
  · exact follows_accept hR pos v
  · exact follows_reject hR expected pos v

theorem Follows.advising (hR : R.Closed Admits) (warning : String) (h : check.Follows R) :
    (advising warning check).Follows R :=
  fun pos v => .bind hR (h pos v) fun _ => .pure hR rfl

theorem Follows.andThen (hR : R.Closed Admits) (hfirst : first.Follows R) (hsecond : second.Follows R) :
    (andThen first second).Follows R := by
  intro pos v
  refine .bind hR (hfirst pos v) fun checked => ?_
  split
  · exact hsecond pos checked.value
  · exact .pure hR rfl

/-- The alternatives all write into one value, those that fail included. -/
theorem follows_firstOf (hR : R.Closed Admits) (expected : String) {checks : List Checker}
    (h : ∀ c ∈ checks, c.Follows R) : (firstOf expected checks).Follows R := by
  induction checks with
  | nil => exact follows_reject hR expected
  | cons c rest ih =>
      intro pos v
      refine .bind hR (h c List.mem_cons_self pos v) fun checked => ?_
      split
      · exact .pure hR rfl
      · exact ih (fun c' hc' => h c' (List.mem_cons_of_mem c hc')) pos checked.value

theorem follows_tooDeep (hR : R.Closed Admits) : tooDeep.Follows R := by
  intro pos v
  exact .bind hR (.log hR rfl) fun _ => follows_reject hR _ pos v

theorem Follows.elements (hR : R.Closed Admits) (h : element.Follows R) : (elements element).Follows R := by
  intro pos v
  cases v with
  | array items =>
      rw [Checker.elements]
      split
      · exact follows_tooDeep hR pos _
      · have hitems : (items.mapM (element pos.descend)).Follows R (fun rs => .array (rs.map (·.value)))
            (.array (items.map id)) :=
          .mapM hR fun x _ before after =>
            (h pos.descend x).inside (fun v => .array (before ++ v :: after)) (hR.element before after)
        rw [List.map_id] at hitems
        exact .bind hR hitems fun results => .pure hR rfl
  | _ => exact .pure hR rfl

/-! ### Objects -/

/-- The check of an injected default writes into the copy, behind the other entries, and logs what it injects there. -/
theorem follows_inject (hR : R.Closed Admits) {slot : Slot} {d : Value} (hcheck : slot.check.Follows R)
    {fields : Fields Value} (hadmits : Admits fields.keys ⟨slot.key, slot.name, d⟩) (pos : Position) :
    (slot.inject pos d).Follows R (fun e => .object (fields ++ [e])) (.object fields) := by
  have hcopy := Run.Follows.log_copy hR hadmits
  have hinject : slot.inject pos d = (Run.log (.injected slot.key slot.name) >>= fun _ => d.deepCopy) >>=
      fun copy => (fun checked => (slot.key, checked.value)) <$> slot.check pos copy := by
    simp [Slot.inject]
  rw [hinject]
  refine .bind hR hcopy fun copy => .map ?_
  exact (hcheck pos copy).inside (fun v => .object (fields ++ [(slot.key, v)])) (hR.entry fields [] slot.key)

/-- **Let in.** Beside the keys of an object `Admits` lets in what is missing, one after another. -/
def AdmitsAll (Admits : List String → Injection → Prop) (present : List String) (missing : List (Slot × Value)) :
    Prop :=
  ∀ done m rest, missing = done ++ m :: rest →
    Admits (present ++ done.map fun (m : Slot × Value) => m.1.key) ⟨m.1.key, m.1.name, m.2⟩

theorem AdmitsAll.head {present : List String} {m : Slot × Value} {rest : List (Slot × Value)}
    (h : AdmitsAll Admits present (m :: rest)) : Admits present ⟨m.1.key, m.1.name, m.2⟩ := by
  have hfirst := h [] m rest rfl
  rwa [List.map_nil, List.append_nil] at hfirst

theorem AdmitsAll.tail {present : List String} {m : Slot × Value} {rest : List (Slot × Value)}
    (h : AdmitsAll Admits present (m :: rest)) : AdmitsAll Admits (present ++ [m.1.key]) rest := by
  intro done m' rest' heq
  have hnext := h (m :: done) m' rest' (by rw [heq, List.cons_append])
  rwa [List.map_cons, ← List.singleton_append, ← List.append_assoc] at hnext

/-- Injections follow one another, and each of them stands beside those before it. -/
theorem follows_injections (hR : R.Closed Admits) {missing : List (Slot × Value)}
    (hcheck : ∀ m ∈ missing, m.1.check.Follows R) {fields : Fields Value}
    (hadmits : AdmitsAll Admits fields.keys missing) (pos : Position) :
    (missing.mapM fun (m : Slot × Value) => m.1.inject pos m.2).Follows R
      (fun added => .object (fields ++ added)) (.object fields) := by
  induction missing generalizing fields with
  | nil =>
      rw [List.mapM_nil]
      exact .pure hR (by rw [List.append_nil])
  | cons m rest ih =>
      have hkey : (m.1.inject pos m.2).Ensures 0 fun e => e.1 = m.1.key := fun _ _ => ⟨rfl, Nat.zero_le _⟩
      rw [List.mapM_cons]
      refine (follows_inject hR (hcheck m List.mem_cons_self) hadmits.head pos).bind_of_ensures hR hkey fun e he => ?_
      have hkeys : Fields.keys (fields ++ [e]) = fields.keys ++ [m.1.key] := by
        rw [Fields.keys, List.map_append, List.map_singleton, he]
        rfl
      have hrest := ih (fun m' hm' => hcheck m' (List.mem_cons_of_mem m hm')) (hkeys ▸ hadmits.tail)
      refine .bind hR hrest fun added => .pure hR ?_
      rw [List.append_assoc, List.singleton_append]

/-- `Admits` lets in what is missing of the slots, whatever entries an object has. -/
def AdmitsSlots (Admits : List String → Injection → Prop) (slots : List Slot) : Prop :=
  ∀ fields : Fields Value, AdmitsAll Admits fields.keys (Slot.missing slots fields)

theorem follows_entries (hR : R.Closed Admits) {checkOf : String → Checker} {slots : List Slot}
    (hcheck : ∀ key, (checkOf key).Follows R) (hslots : ∀ slot ∈ slots, slot.check.Follows R)
    (hadmits : AdmitsSlots Admits slots) : (entries checkOf slots).Follows R := by
  intro pos v
  cases v with
  | object fields =>
      rw [entries]
      split
      · exact follows_tooDeep hR pos _
      · have hentries : (fields.mapM fun e => Prod.mk e.1 <$> checkOf e.1 pos.descend e.2).Follows R
            (fun rs => .object (rs.map fun r => (r.1, r.2.value))) (.object (fields.map id)) :=
          .mapM hR fun e _ before after => .map
            ((hcheck e.1 pos.descend e.2).inside (fun v => .object (before ++ (e.1, v) :: after))
              (hR.entry before after e.1))
        rw [List.map_id] at hentries
        have hkeys : (fields.mapM fun e => Prod.mk e.1 <$> checkOf e.1 pos.descend e.2).Ensures 0
            (List.Forall₂ (fun e r => r.1 = e.1) fields) :=
          .mapM fun e _ _ _ => ⟨rfl, Nat.zero_le _⟩
        refine hentries.bind_of_ensures hR hkeys fun results hresults => ?_
        -- The entries that were there keep their keys, so what was missing still is.
        have hsame : Fields.keys (results.map fun r => (r.1, r.2.value)) = Fields.keys fields := by
          rw [Fields.keys, List.map_map]
          exact forall₂_map_eq hresults
        have hbeside : AdmitsAll Admits (Fields.keys (results.map fun r => (r.1, r.2.value)))
            (Slot.missing slots fields) := hsame ▸ hadmits fields
        have hadded := follows_injections hR (fun m hm => hslots m.1 (mem_missing hm).1) hbeside pos.descend
        exact .bind hR hadded fun added => .pure hR rfl
  | _ => exact .pure hR rfl

end Checker

/-! ## Schemas -/

namespace Schema

open Checker

/-- **Every validation takes the course** that injections keep. -/
theorem follows {R : Course} {Admits : List String → Injection → Prop} (hR : R.Closed Admits) {s : Schema}
    (hc : s.CustomFree) (hadmits : s.Everywhere fun rule => AdmitsSlots Admits (slots rule.declared)) :
    s.check.Follows R := by
  have hclosed : Checker.Closed (Checker.Follows R) (AdmitsSlots Admits) :=
    { accept := follows_accept hR
      ofKind := follows_ofKind hR
      andThen := Checker.Follows.andThen hR
      firstOf := follows_firstOf hR
      advising := fun warning {_} h => h.advising hR warning
      elements := Checker.Follows.elements hR
      entries := follows_entries hR }
  refine hclosed.check ((hc.and hadmits).mono fun rule hrule => ?_)
  cases rule with
  | oneOf literals => exact follows_literal hR literals _
  | custom name check => exact absurd hrule.1 id
  | _ => exact hrule.2

end Schema

end ConfigSchema
